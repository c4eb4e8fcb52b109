import FulgurLogging.Lib.Mutex
import Mathlib.Data.List.Infix
import Mathlib.Logic.Function.Basic

/-!
# Monitors

A shared value, a mutex and one condition variable, for any number of threads. A thread either
waits for the value to be as it needs it, in a loop around the condition variable under the mutex,
or it goes through a locked section of stores and notifications. Waiting releases the mutex and
falls asleep in one step; a notification wakes all sleepers; a woken thread has to take the mutex
again before it tests again; and a sleeper may wake for no reason.

The value may also be published outside the mutex, by a thread that then enters a section. This is
how wake-ups are lost in general: a waiter that has read the old value and is not asleep yet misses
the notification.

## The debt

`Orderly` asks two things of the sections: a store is followed at once by a notification, and so is
a value published outside, after taking the mutex. Then a sleeper whose condition holds is owed a
notification: some thread has one as its very next operation. A thread about to fall asleep counts
as a sleeper here. It holds the mutex, so no notification can come between its test and its sleep.
-/

namespace Monitor

open Mutex

variable {T α σ : Type*}

/-- What a thread does in a section. -/
inductive Op (σ : Type*)
  | store (v : σ)
  | notifyAll
  deriving DecidableEq

/-- Where a thread stands. -/
inductive Point (α σ : Type*)
  | idle
  /-- Called to wait, about to take the mutex. -/
  | entering (a : α)
  /-- In the loop, about to test the value. -/
  | testing (a : α)
  /-- In the loop, about to wait. -/
  | parking (a : α)
  | asleep (a : α)
  /-- Notified, or woken for no reason; about to take the mutex again. -/
  | woken (a : α)
  /-- Past the loop, about to release the mutex and return. -/
  | leaving (a : α)
  /-- About to take the mutex for a section. -/
  | locking (ops : List (Op σ))
  /-- In a section, with these operations to go. -/
  | working (ops : List (Op σ))
  deriving DecidableEq

namespace Point

/-- Whether the thread holds the mutex. -/
def inside : Point α σ → Bool
  | testing _ | parking _ | leaving _ | working _ => true
  | _ => false

/-- What notifying does to one thread. -/
def notified : Point α σ → Point α σ
  | asleep a => woken a
  | p => p

/-- What a thread past its test waits for, asleep or about to be. -/
def sleeper : Point α σ → Option α
  | parking a | asleep a => some a
  | _ => none

/-- What a thread has called to wait for. -/
def request : Point α σ → Option α
  | entering a | testing a | parking a | asleep a | woken a | leaving a => some a
  | _ => none

/-- What a thread is about to test. -/
def tested : Point α σ → Option α
  | testing a => some a
  | _ => none

/-- The operations a thread has to go in its section. -/
def ops : Point α σ → List (Op σ)
  | locking ops | working ops => ops
  | _ => []

/-- Whether a notification is the next operation of the thread's section. -/
def owes (p : Point α σ) : Bool :=
  match p.ops with
  | .notifyAll :: _ => true
  | _ => false

@[simp] theorem inside_notified (p : Point α σ) : p.notified.inside = p.inside := by
  cases p <;> rfl

@[simp] theorem request_notified (p : Point α σ) : p.notified.request = p.request := by
  cases p <;> rfl

@[simp] theorem ops_notified (p : Point α σ) : p.notified.ops = p.ops := by
  cases p <;> rfl

theorem eq_locking_of_notified {p : Point α σ} {ops : List (Op σ)}
    (h : p.notified = locking ops) : p = locking ops := by
  cases p <;> simp_all [notified]

theorem eq_leaving_of_notified {p : Point α σ} {a : α} (h : p.notified = leaving a) :
    p = leaving a := by
  cases p <;> simp_all [notified]

end Point

structure State (T α σ : Type*) where
  value : σ
  owner : Option T
  point : T → Point α σ

inductive Action (T α σ : Type*)
  /-- A call to wait. -/
  | wait (t : T) (a : α)
  /-- A call of a section. -/
  | lock (t : T) (ops : List (Op σ))
  /-- A value published outside the mutex, and then the call of a section. -/
  | publish (t : T) (v : σ) (ops : List (Op σ))
  | advance (t : T)
  /-- A sleeper wakes for no reason. -/
  | wake (t : T)

/-- Every thread idle. -/
def init (T α : Type*) (v : σ) : State T α σ := ⟨v, none, fun _ ↦ .idle⟩

section Step

variable [DecidableEq T]

/-- The thread goes on to a program point. -/
def State.goto (s : State T α σ) (t : T) (p : Point α σ) : State T α σ :=
  { s with point := Function.update s.point t p }

/-- The thread takes the mutex, if it is free. -/
def State.enter (s : State T α σ) (t : T) (p : Point α σ) : Option (State T α σ) :=
  match s.owner with
  | none => some { s.goto t p with owner := some t }
  | some _ => none

/-- The thread releases the mutex. -/
def State.exit (s : State T α σ) (t : T) (p : Point α σ) : State T α σ :=
  { s.goto t p with owner := none }

/-- The next operation of one thread. -/
def advance (ready : σ → α → Bool) (s : State T α σ) (t : T) : Option (State T α σ) :=
  match s.point t with
  | .idle | .asleep _ => none
  | .entering a | .woken a => s.enter t (.testing a)
  | .testing a => some (s.goto t (if ready s.value a then .leaving a else .parking a))
  | .parking a => some (s.exit t (.asleep a))
  | .leaving _ => some (s.exit t .idle)
  | .locking ops => s.enter t (.working ops)
  | .working [] => some (s.exit t .idle)
  | .working (.store v :: ops) => some { s.goto t (.working ops) with value := v }
  | .working (.notifyAll :: ops) =>
    some ({ s with point := fun u ↦ (s.point u).notified }.goto t (.working ops))

def step (ready : σ → α → Bool) (s : State T α σ) : Action T α σ → Option (State T α σ)
  | .wait t a =>
    match s.point t with
    | .idle => some (s.goto t (.entering a))
    | _ => none
  | .lock t ops =>
    match s.point t with
    | .idle => some (s.goto t (.locking ops))
    | _ => none
  | .publish t v ops =>
    match s.point t with
    | .idle => some { s.goto t (.locking ops) with value := v }
    | _ => none
  | .advance t => advance ready s t
  | .wake t =>
    match s.point t with
    | .asleep a => some (s.goto t (.woken a))
    | _ => none

end Step

/-! ## What is kept -/

/-- Every store is followed at once by a notification. -/
def Covered : List (Op σ) → Prop
  | .store _ :: .notifyAll :: ops => Covered ops
  | .store _ :: _ => False
  | .notifyAll :: ops => Covered ops
  | [] => True

/-- The sections called are covered, and a value is published only ahead of a section that starts
with a notification, and only if no condition that held is lost. -/
def Orderly (ready : σ → α → Bool) (s : State T α σ) : Action T α σ → Prop
  | .lock _ ops => Covered ops
  | .publish _ v ops =>
    (∃ rest, ops = .notifyAll :: rest ∧ Covered rest) ∧ ∀ a, ready s.value a → ready v a
  | _ => True

/-- A sleeper whose condition holds is owed a notification, and a thread past its loop finds its
condition as it left it. -/
structure Settled (ready : σ → α → Bool) (value : σ) (point : T → Point α σ) : Prop where
  covered : ∀ t, Covered (point t).ops
  debt : ∀ t a, (point t).sleeper = some a → ready value a → ∃ u, (point u).owes
  left : ∀ t a, point t = .leaving a → ready value a

/-- The invariant of orderly runs. -/
structure Sound (ready : σ → α → Bool) (s : State T α σ) : Prop where
  guarded : Guarded (fun t ↦ (s.point t).inside = true) s.owner
  settled : Settled ready s.value s.point

section Kept

variable {ready : σ → α → Bool} {value v : σ} {point : T → Point α σ} {s s' : State T α σ} {t : T}
  {p : Point α σ} {ops : List (Op σ)}

theorem sound_init : Sound ready (init T α v) :=
  ⟨Guarded.none_of_forall fun _ ↦ Bool.false_ne_true, fun _ ↦ trivial, nofun, nofun⟩

theorem Covered.tail {op : Op σ} (h : Covered (op :: ops)) : Covered ops := by
  cases op with
  | notifyAll => exact h
  | store v =>
    match ops, h with
    | .notifyAll :: _, h => exact h

/-- After a store the thread owes the notification. -/
theorem Covered.owes_of_store (h : Covered (.store v :: ops)) :
    (Point.working ops : Point α σ).owes = true := by
  match ops, h with
  | .notifyAll :: _, _ => rfl

/-- **A thread leaves its loop under the mutex, with its condition true.** -/
theorem Sound.leaving {a : α} (h : Sound ready s) (hp : s.point t = .leaving a) :
    s.owner = some t ∧ ready s.value a = true :=
  ⟨h.guarded.owner_eq (t := t) (by rw [hp]; rfl), h.settled.left t a hp⟩

/-- **No wake-up is lost.** When no thread is about to notify, no sleeper's condition holds. -/
theorem Sound.asleep {a : α} (h : Sound ready s) (howes : ∀ u, (s.point u).owes = false)
    (hp : s.point t = .asleep a) : ready s.value a = false := by
  by_contra hready
  obtain ⟨u, hu⟩ := h.settled.debt t a (by rw [hp]; rfl) (Bool.not_eq_false _ ▸ hready)
  rw [howes u] at hu
  cases hu

variable [DecidableEq T]

/-- A step of one thread that leaves the value alone: it falls asleep only after a failed test, and
keeps what it owes. -/
theorem Settled.update (h : Settled ready value point) (hops : Covered p.ops)
    (hsleep : ∀ a, p.sleeper = some a → (point t).sleeper = some a ∨ ready value a = false)
    (howes : (point t).owes → p.owes) (hleft : ∀ a, p = .leaving a → ready value a) :
    Settled ready value (Function.update point t p) := by
  refine ⟨(Function.forall_update_iff point fun _ q ↦ Covered q.ops).mpr
      ⟨hops, fun u _ ↦ h.covered u⟩, fun u a hu hready ↦ ?_,
    (Function.forall_update_iff point fun _ q ↦ ∀ a, q = .leaving a → ready value a).mpr
      ⟨hleft, fun u _ ↦ h.left u⟩⟩
  have hdebt : ∃ w, (point w).owes := by
    by_cases hut : u = t
    · rw [hut, Function.update_self] at hu
      refine h.debt t a ((hsleep a hu).resolve_right ?_) hready
      rw [hready]
      exact Bool.noConfusion
    · rw [Function.update_of_ne hut] at hu
      exact h.debt u a hu hready
  obtain ⟨w, hw⟩ := hdebt
  refine ⟨w, ?_⟩
  by_cases hwt : w = t
  · rw [hwt, Function.update_self]
    exact howes (hwt ▸ hw)
  · rwa [Function.update_of_ne hwt]

/-- A step after which the thread owes a notification may change the value, if it keeps every
condition that a thread past its loop relies on. -/
theorem Settled.change (h : Settled ready value point) (hops : Covered p.ops) (howes : p.owes)
    (hleft : ∀ u a, u ≠ t → point u = .leaving a → ready value a → ready v a) :
    Settled ready v (Function.update point t p) := by
  refine ⟨(Function.forall_update_iff point fun _ q ↦ Covered q.ops).mpr
      ⟨hops, fun u _ ↦ h.covered u⟩, fun u a _ _ ↦ ⟨t, ?_⟩,
    (Function.forall_update_iff point fun _ q ↦ ∀ a, q = .leaving a → ready v a).mpr
      ⟨fun a hp ↦ ?_, fun u hut a hu ↦ ?_⟩⟩
  · rwa [Function.update_self]
  · rw [hp] at howes
    cases howes
  · exact hleft u a hut hu (h.left u a hu)

/-- After a notification nobody is asleep, and nobody is about to be. -/
theorem Settled.notify (h : Settled ready value point) (hops : Covered ops)
    (hpark : ∀ u a, u ≠ t → point u ≠ .parking a) :
    Settled ready value (Function.update (fun u ↦ (point u).notified) t (.working ops)) := by
  refine ⟨fun u ↦ ?_, fun u a hu _ ↦ ?_, fun u a hu ↦ ?_⟩
  · by_cases hut : u = t
    · rwa [hut, Function.update_self]
    · rw [Function.update_of_ne hut, Point.ops_notified]
      exact h.covered u
  · by_cases hut : u = t
    · rw [hut, Function.update_self] at hu
      cases hu
    · rw [Function.update_of_ne hut] at hu
      cases hp : point u with
      | parking b => exact absurd hp (hpark u b hut)
      | _ =>
        rw [hp] at hu
        cases hu
  · by_cases hut : u = t
    · rw [hut, Function.update_self] at hu
      cases hu
    · rw [Function.update_of_ne hut] at hu
      exact h.left u a (Point.eq_leaving_of_notified hu)

/-! ## Steps -/

theorem goto_self : (s.goto t p).point t = p := Function.update_self _ _ _

theorem exit_self : (s.exit t p).point t = p := goto_self

theorem goto_of_ne {u : T} (hu : u ≠ t) : (s.goto t p).point u = s.point u :=
  Function.update_of_ne hu _ _

theorem goto_frame {u : T} (hu : u ≠ t) :
    ((s.goto t p).point u).inside = true ↔ (s.point u).inside = true := by
  rw [goto_of_ne hu]

theorem guarded_goto (h : Guarded (fun t ↦ (s.point t).inside = true) s.owner)
    (hin : p.inside = (s.point t).inside) :
    Guarded (fun u ↦ ((s.goto t p).point u).inside = true) s.owner :=
  h.stay (t := t) (by rw [goto_self, hin]) fun _ hu ↦ goto_frame hu

/-! ## What a step is -/

theorem enter_eq (hstep : s.enter t p = some s') :
    s.owner = none ∧ s' = { s.goto t p with owner := some t } := by
  rw [State.enter] at hstep
  split at hstep
  next hfree => exact ⟨hfree, (Option.some_inj.mp hstep).symm⟩
  next => cases hstep

theorem step_wait {a : α} (hstep : step ready s (.wait t a) = some s') :
    s.point t = .idle ∧ s' = s.goto t (.entering a) := by
  rw [step] at hstep
  split at hstep
  next hp => exact ⟨hp, (Option.some_inj.mp hstep).symm⟩
  next => cases hstep

theorem step_lock {ops : List (Op σ)} (hstep : step ready s (.lock t ops) = some s') :
    s.point t = .idle ∧ s' = s.goto t (.locking ops) := by
  rw [step] at hstep
  split at hstep
  next hp => exact ⟨hp, (Option.some_inj.mp hstep).symm⟩
  next => cases hstep

theorem step_publish {v : σ} {ops : List (Op σ)}
    (hstep : step ready s (.publish t v ops) = some s') :
    s.point t = .idle ∧ s' = { s.goto t (.locking ops) with value := v } := by
  rw [step] at hstep
  split at hstep
  next hp => exact ⟨hp, (Option.some_inj.mp hstep).symm⟩
  next => cases hstep

theorem step_wake (hstep : step ready s (.wake t) = some s') :
    ∃ a, s.point t = .asleep a ∧ s' = s.goto t (.woken a) := by
  rw [step] at hstep
  split at hstep
  next a hp => exact ⟨a, hp, (Option.some_inj.mp hstep).symm⟩
  next => cases hstep

/-! ## What one step does to the threads -/

/-- Where the next operation takes the thread that makes it. -/
inductive Next (ready : σ → α → Bool) (value : σ) : Point α σ → Point α σ → Prop
  | enter (a : α) : Next ready value (.entering a) (.testing a)
  | reenter (a : α) : Next ready value (.woken a) (.testing a)
  | leave (a : α) : ready value a = true → Next ready value (.testing a) (.leaving a)
  | park (a : α) : ready value a = false → Next ready value (.testing a) (.parking a)
  | sleep (a : α) : Next ready value (.parking a) (.asleep a)
  | exit (a : α) : Next ready value (.leaving a) .idle
  | lock (ops : List (Op σ)) : Next ready value (.locking ops) (.working ops)
  | work (op : Op σ) (ops : List (Op σ)) : Next ready value (.working (op :: ops)) (.working ops)
  | unlock : Next ready value (.working []) .idle

theorem Next.request {p' : Point α σ} {a : α} (h : Next ready value p p')
    (hp' : p'.request = some a) : p.request = some a := by
  cases h <;> first | exact hp' | cases hp'

theorem goto_point (u : T) :
    (s.goto t p).point u = s.point u ∨ u = t ∧ (s.goto t p).point u = p := by
  by_cases hu : u = t
  · exact .inr ⟨hu, by rw [hu, goto_self]⟩
  · exact .inl (goto_of_ne hu)

theorem enter_point (hstep : s.enter t p = some s') (u : T) :
    s'.point u = s.point u ∨ u = t ∧ s'.point u = p := by
  obtain ⟨-, rfl⟩ := enter_eq hstep
  exact goto_point u

/-- **Inversion.** The thread that makes the operation goes on by `Next`, and another one at most
wakes up. -/
theorem advance_point (hstep : advance ready s t = some s') (u : T) :
    s'.point u = s.point u ∨ s'.point u = (s.point u).notified ∨
      u = t ∧ Next ready s.value (s.point u) (s'.point u) := by
  have hgoto : ∀ {p}, Next ready s.value (s.point t) p →
      (s'.point u = s.point u ∨ u = t ∧ s'.point u = p) →
      s'.point u = s.point u ∨ s'.point u = (s.point u).notified ∨
        u = t ∧ Next ready s.value (s.point u) (s'.point u) := by
    rintro p hnext (hu | ⟨rfl, hp⟩)
    · exact .inl hu
    · exact .inr (.inr ⟨rfl, hp ▸ hnext⟩)
  cases hp : s.point t with
  | idle => simp only [Monitor.advance, hp, reduceCtorEq] at hstep
  | asleep a => simp only [Monitor.advance, hp, reduceCtorEq] at hstep
  | entering a =>
    simp only [Monitor.advance, hp] at hstep
    exact hgoto (hp ▸ .enter a) (enter_point hstep u)
  | woken a =>
    simp only [Monitor.advance, hp] at hstep
    exact hgoto (hp ▸ .reenter a) (enter_point hstep u)
  | locking ops =>
    simp only [Monitor.advance, hp] at hstep
    exact hgoto (hp ▸ .lock ops) (enter_point hstep u)
  | testing a =>
    simp only [Monitor.advance, hp, Option.some_inj] at hstep
    subst hstep
    refine hgoto ?_ (goto_point u)
    rw [hp]
    by_cases hready : ready s.value a = true
    · rw [if_pos hready]
      exact .leave a hready
    · rw [if_neg hready]
      exact .park a (Bool.not_eq_true _ ▸ hready)
  | parking a =>
    simp only [Monitor.advance, hp, Option.some_inj] at hstep
    subst hstep
    exact hgoto (hp ▸ .sleep a) (goto_point u)
  | leaving a =>
    simp only [Monitor.advance, hp, Option.some_inj] at hstep
    subst hstep
    exact hgoto (hp ▸ .exit a) (goto_point u)
  | working ops =>
    match ops, hp with
    | [], hp =>
      simp only [Monitor.advance, hp, Option.some_inj] at hstep
      subst hstep
      exact hgoto (hp ▸ .unlock) (goto_point u)
    | .store v :: ops, hp =>
      simp only [Monitor.advance, hp, Option.some_inj] at hstep
      subst hstep
      exact hgoto (hp ▸ .work _ ops) (goto_point u)
    | .notifyAll :: ops, hp =>
      simp only [Monitor.advance, hp, Option.some_inj] at hstep
      subst hstep
      by_cases hu : u = t
      · exact hgoto (p := .working ops) (hp ▸ .work _ ops) (.inr ⟨hu, by rw [hu, goto_self]⟩)
      · exact .inr (.inl (goto_of_ne hu))

/-- Only a store in a section changes the value. -/
theorem advance_value (hstep : advance ready s t = some s')
    (hops : ∀ v, .store v ∉ (s.point t).ops) : s'.value = s.value := by
  have henter : ∀ {p}, s.enter t p = some s' → s'.value = s.value := by
    intro p hp
    obtain ⟨-, rfl⟩ := enter_eq hp
    rfl
  rw [advance] at hstep
  split at hstep
  all_goals first
    | exact henter hstep
    | cases hstep <;> rfl
    | skip
  next v ops hp => exact absurd (by rw [hp]; exact List.mem_cons_self) (hops v)

theorem advance_request {a : α} (hstep : advance ready s t = some s') {u : T}
    (ha : (s'.point u).request = some a) : (s.point u).request = some a := by
  rcases advance_point hstep u with hu | hu | ⟨-, hnext⟩
  · rwa [hu] at ha
  · rwa [hu, Point.request_notified] at ha
  · exact hnext.request ha

/-- The loop is left by a test that finds the condition true. -/
theorem advance_leaving {a : α} (hstep : advance ready s t = some s') {u : T}
    (ha : s'.point u = .leaving a) :
    s.point u = .leaving a ∨ u = t ∧ s.point u = .testing a ∧ ready s.value a = true := by
  rcases advance_point hstep u with hu | hu | ⟨hut, hnext⟩
  · exact .inl (hu ▸ ha)
  · exact .inl (Point.eq_leaving_of_notified (hu ▸ ha))
  · rw [ha] at hnext
    cases hp : s.point u with
    | testing b =>
      rw [hp] at hnext
      cases hnext with
      | leave _ hready => exact .inr ⟨hut, rfl, hready⟩
    | _ =>
      rw [hp] at hnext
      cases hnext

theorem ops_goto (h : p.ops = []) (u : T) : ((s.goto t p).point u).ops <:+ (s.point u).ops := by
  rcases goto_point u with hu | ⟨-, hu⟩
  · rw [hu]
  · rw [hu, h]
    exact List.nil_suffix

/-- A section only gets shorter. -/
theorem ops_advance (hstep : advance ready s t = some s') (u : T) :
    (s'.point u).ops <:+ (s.point u).ops := by
  rcases advance_point hstep u with hu | hu | ⟨-, hnext⟩
  · rw [hu]
  · rw [hu, Point.ops_notified]
  · cases hp : s.point u <;> cases hp' : s'.point u <;> rw [hp, hp'] at hnext <;> cases hnext <;>
      first | exact List.nil_suffix | exact List.suffix_refl _ | exact List.suffix_cons _ _

/-- Only a call puts operations ahead of a thread. -/
theorem ops_step {a : Action T α σ} (hstep : step ready s a = some s') {u : T}
    (hlock : ∀ ops, a ≠ .lock u ops) (hpublish : ∀ v ops, a ≠ .publish u v ops) :
    (s'.point u).ops <:+ (s.point u).ops := by
  cases a with
  | advance t => exact ops_advance hstep u
  | wait t a =>
    obtain ⟨-, rfl⟩ := step_wait hstep
    exact ops_goto rfl u
  | wake t =>
    obtain ⟨a, -, rfl⟩ := step_wake hstep
    exact ops_goto rfl u
  | lock t ops =>
    have hu : u ≠ t := fun hc ↦ hlock ops (by rw [hc])
    obtain ⟨-, rfl⟩ := step_lock hstep
    rw [goto_of_ne hu]
  | publish t v ops =>
    have hu : u ≠ t := fun hc ↦ hpublish v ops (by rw [hc])
    obtain ⟨-, rfl⟩ := step_publish hstep
    change ((s.goto t (.locking ops)).point u).ops <:+ _
    rw [goto_of_ne hu]

/-- Only a call brings a thread to where it takes the mutex for a section. -/
theorem locking_step {a : Action T α σ} (hstep : step ready s a = some s') {u : T}
    (hu : s'.point u = .locking ops) :
    s.point u = .locking ops ∨ a = .lock u ops ∨ ∃ v, a = .publish u v ops := by
  cases a with
  | advance t =>
    refine .inl ?_
    rcases advance_point hstep u with hkept | hkept | ⟨-, hnext⟩
    · rw [← hkept, hu]
    · exact Point.eq_locking_of_notified (hkept ▸ hu)
    · rw [hu] at hnext
      cases hp : s.point u <;> rw [hp] at hnext <;> cases hnext
  | wait t a =>
    obtain ⟨-, rfl⟩ := step_wait hstep
    rcases goto_point (s := s) (t := t) (p := .entering a) u with hkept | ⟨-, hmoved⟩
    · exact .inl (hkept ▸ hu)
    · cases hmoved.symm.trans hu
  | wake t =>
    obtain ⟨a, -, rfl⟩ := step_wake hstep
    rcases goto_point (s := s) (t := t) (p := .woken a) u with hkept | ⟨-, hmoved⟩
    · exact .inl (hkept ▸ hu)
    · cases hmoved.symm.trans hu
  | lock t ops' =>
    obtain ⟨-, rfl⟩ := step_lock hstep
    rcases goto_point (s := s) (t := t) (p := .locking ops') u with hkept | ⟨rfl, hmoved⟩
    · exact .inl (hkept ▸ hu)
    · cases hmoved.symm.trans hu
      exact .inr (.inl rfl)
  | publish t v ops' =>
    obtain ⟨-, rfl⟩ := step_publish hstep
    rcases goto_point (s := s) (t := t) (p := .locking ops') u with hkept | ⟨rfl, hmoved⟩
    · exact .inl (hkept.symm.trans hu)
    · cases hmoved.symm.trans hu
      exact .inr (.inr ⟨v, rfl⟩)

namespace Sound

theorem goto (h : Sound ready s) (hin : p.inside = (s.point t).inside) (hops : Covered p.ops)
    (hsleep : ∀ a, p.sleeper = some a →
      (s.point t).sleeper = some a ∨ ready s.value a = false)
    (howes : (s.point t).owes → p.owes) (hleft : ∀ a, p = .leaving a → ready s.value a) :
    Sound ready (s.goto t p) :=
  ⟨guarded_goto h.guarded hin, h.settled.update hops hsleep howes hleft⟩

theorem enter (h : Sound ready s) (hin : p.inside = true) (hops : Covered p.ops)
    (hsleep : p.sleeper = none) (howes : (s.point t).owes → p.owes)
    (hleft : ∀ a, p ≠ .leaving a) (hstep : s.enter t p = some s') : Sound ready s' := by
  obtain ⟨hfree, rfl⟩ := enter_eq hstep
  have hguarded := h.guarded
  rw [hfree] at hguarded
  refine ⟨hguarded.acquire (t := t) ?_ fun _ hu ↦ goto_frame hu, h.settled.update hops ?_ howes ?_⟩
  · change ((s.goto t p).point t).inside = true
    rw [goto_self, hin]
  · intro a ha
    rw [hsleep] at ha
    cases ha
  · exact fun a ha ↦ absurd ha (hleft a)

theorem exit (h : Sound ready s) (hin : (s.point t).inside = true) (hout : p.inside = false)
    (hops : p.ops = []) (hsleep : ∀ a, p.sleeper = some a → (s.point t).sleeper = some a)
    (howes : (s.point t).owes = false) (hleft : ∀ a, p ≠ .leaving a) :
    Sound ready (s.exit t p) := by
  refine ⟨h.guarded.release hin ?_ fun _ hu ↦ goto_frame hu,
    h.settled.update (by rw [hops]; trivial) (fun a ha ↦ .inl (hsleep a ha)) ?_
      fun a ha ↦ absurd ha (hleft a)⟩
  · change ¬ ((s.goto t p).point t).inside = true
    rw [goto_self, hout]
    exact Bool.false_ne_true
  · intro hc
    rw [howes] at hc
    cases hc

/-- **The step lemma**, for the operations of one thread. -/
theorem advance (h : Sound ready s) (hstep : Monitor.advance ready s t = some s') :
    Sound ready s' := by
  have hcovered := h.settled.covered t
  cases hp : s.point t with
  | idle => simp only [Monitor.advance, hp, reduceCtorEq] at hstep
  | asleep a => simp only [Monitor.advance, hp, reduceCtorEq] at hstep
  | entering a | woken a =>
    simp only [Monitor.advance, hp] at hstep
    exact h.enter (p := .testing a) rfl trivial rfl (by rw [hp]; exact nofun) nofun hstep
  | testing a =>
    simp only [Monitor.advance, hp, Option.some_inj] at hstep
    subst hstep
    split
    next hready =>
      refine h.goto (by rw [hp]; rfl) trivial nofun (by rw [hp]; exact nofun) fun b hb ↦ ?_
      cases hb
      exact hready
    next hready =>
      refine h.goto (by rw [hp]; rfl) trivial (fun b hb ↦ .inr ?_) (by rw [hp]; exact nofun) nofun
      cases hb
      exact Bool.not_eq_true _ ▸ hready
  | parking a =>
    simp only [Monitor.advance, hp, Option.some_inj] at hstep
    subst hstep
    exact h.exit (by rw [hp]; rfl) rfl rfl (by rw [hp]; exact fun _ hb ↦ hb) (by rw [hp]; rfl) nofun
  | leaving a =>
    simp only [Monitor.advance, hp, Option.some_inj] at hstep
    subst hstep
    exact h.exit (by rw [hp]; rfl) rfl rfl nofun (by rw [hp]; rfl) nofun
  | locking ops =>
    rw [hp] at hcovered
    simp only [Monitor.advance, hp] at hstep
    exact h.enter (p := .working ops) rfl hcovered rfl (by rw [hp]; exact id) nofun hstep
  | working ops =>
    rw [hp] at hcovered
    match ops, hcovered with
    | [], _ =>
      simp only [Monitor.advance, hp, Option.some_inj] at hstep
      subst hstep
      exact h.exit (by rw [hp]; rfl) rfl rfl nofun (by rw [hp]; rfl) nofun
    | .store v :: ops, hcovered =>
      simp only [Monitor.advance, hp, Option.some_inj] at hstep
      subst hstep
      refine ⟨guarded_goto h.guarded (by rw [hp]; rfl),
        h.settled.change hcovered.tail hcovered.owes_of_store fun u a hut hu _ ↦ ?_⟩
      -- a thread past its loop would hold the mutex too
      exact absurd (h.guarded.eq (t := u) (u := t) (by rw [hu]; rfl) (by rw [hp]; rfl)) hut
    | .notifyAll :: ops, hcovered =>
      simp only [Monitor.advance, hp, Option.some_inj] at hstep
      subst hstep
      refine ⟨guarded_goto (s := { s with point := fun u ↦ (s.point u).notified })
        (h.guarded.congr fun u ↦ by rw [Point.inside_notified]) ?_,
        h.settled.notify hcovered.tail fun u a hut hu ↦ ?_⟩
      · rw [Point.inside_notified, hp]
        rfl
      · exact hut (h.guarded.eq (t := u) (u := t) (by rw [hu]; rfl) (by rw [hp]; rfl))

theorem step (h : Sound ready s) {a : Action T α σ} (ha : Orderly ready s a)
    (hstep : Monitor.step ready s a = some s') : Sound ready s' := by
  cases a with
  | advance t => exact h.advance hstep
  | wait t a =>
    obtain ⟨hp, rfl⟩ := step_wait hstep
    exact h.goto (by rw [hp]; rfl) trivial nofun (by rw [hp]; exact nofun) nofun
  | lock t ops =>
    obtain ⟨hp, rfl⟩ := step_lock hstep
    exact h.goto (by rw [hp]; rfl) ha nofun (by rw [hp]; exact nofun) nofun
  | publish t v ops =>
    obtain ⟨⟨rest, rfl, hrest⟩, hmono⟩ := ha
    obtain ⟨hp, rfl⟩ := step_publish hstep
    exact ⟨guarded_goto h.guarded (by rw [hp]; rfl),
      h.settled.change hrest rfl fun _ b _ _ hb ↦ hmono b hb⟩
  | wake t =>
    obtain ⟨a, hp, rfl⟩ := step_wake hstep
    exact h.goto (by rw [hp]; rfl) trivial nofun (by rw [hp]; exact nofun) nofun

end Sound

end Kept

end Monitor
