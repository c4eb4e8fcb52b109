import FulgurLogging.Lib.Machine
import FulgurLogging.Lib.Mutex
import FulgurLogging.Lib.Progress
import Mathlib.Data.Fintype.Basic

/-!
# The `Spinlock`

The lock is one word: `TryLock` exchanges it with `Locked`, `Unlock` stores `Unlocked`. Nothing
records who has taken it, so `Unlock` cannot refuse a thread that has not. Which unlocks keep the
critical sections apart is the first question: those of the thread inside, and those with nobody
inside.

The loop of `Lock` waits for another thread without a bound. What holds of every schedule is that
some thread gets in, again and again; which one is left open, and a thread can spin for ever.
-/

namespace FulgurLogging

open Transition Mutex

namespace Spinlock

/-- `enum LockState` -/
inductive LockState
  | unlocked
  | locked
deriving DecidableEq

/-- Whether the exchange found the lock open, and what it leaves. -/
def tryLock (state : LockState) : Bool × LockState := (state != .locked, .locked)

def unlock (_ : LockState) : LockState := .unlocked

def isLocked (state : LockState) : Bool := state == .locked

/-- Where a thread is: in the loop of `Lock`, or between calls. -/
inductive Point
  | outside
  | locking
  | inside
deriving DecidableEq

variable {T : Type*}

structure State (T : Type*) where
  spinLockState : LockState
  point : T → Point

/-- A call of `Lock` and a round of its loop, and the calls of one step. -/
inductive Action (T : Type*)
  | lock (t : T)
  | spin (t : T)
  | tryLock (t : T)
  | unlock (t : T)

/-- Nobody has called anything. -/
def init (T : Type*) : State T := ⟨.unlocked, fun _ ↦ .outside⟩

section Step

variable [DecidableEq T]

/-- The exchange of `t`, which goes back to `p` if it finds the lock taken. -/
def State.exchange (s : State T) (t : T) (p : Point) : State T :=
  let r := Spinlock.tryLock s.spinLockState
  ⟨r.2, Function.update s.point t (if r.1 then .inside else p)⟩

def step (s : State T) : Action T → Option (State T)
  | .lock t =>
      if s.point t = .outside then some { s with point := Function.update s.point t .locking }
      else none
  | .spin t => if s.point t = .locking then some (s.exchange t .locking) else none
  | .tryLock t =>
      -- also by the thread inside, which stays there
      if s.point t = .locking then none else some (s.exchange t (s.point t))
  | .unlock t =>
      -- also by a thread that has not taken the lock
      if s.point t = .locking then none
      else some ⟨Spinlock.unlock s.spinLockState, Function.update s.point t .outside⟩

variable (T) in
def machine : Machine (State T) (Action T) := ⟨step⟩

end Step

/-! ## Mutual exclusion -/

def Inside (s : State T) (t : T) : Prop := s.point t = .inside

/-- No two threads are inside. -/
def Exclusive (s : State T) : Prop := ∀ t u, Inside s t → Inside s u → t = u

/-- The word says whether a thread is inside. -/
def Guards (s : State T) : Prop :=
  ∃ owner, Guarded (Inside s) owner ∧ isLocked s.spinLockState = owner.isSome

/-- An `Unlock` is that of the thread inside, if there is one. -/
def Owned (s : State T) : Action T → Prop
  | .unlock t => ∀ u, s.point u = .inside → u = t
  | _ => True

instance [Fintype T] [DecidableEq T] (s : State T) : ∀ a, Decidable (Owned s a)
  | .unlock t => inferInstanceAs (Decidable (∀ u, s.point u = .inside → u = t))
  | .lock _ | .spin _ | .tryLock _ => isTrue trivial

theorem guards_init : Guards (init T) :=
  ⟨none, Guarded.none_of_forall fun _ ht ↦ absurd ht Point.noConfusion, rfl⟩

theorem Guards.exclusive {s : State T} (h : Guards s) : Exclusive s := by
  obtain ⟨owner, hguarded, -⟩ := h
  exact fun t u ht hu ↦ hguarded.eq ht hu

theorem Guards.isLocked_iff {s : State T} (h : Guards s) :
    isLocked s.spinLockState = true ↔ ∃ t, Inside s t := by
  obtain ⟨owner, hguarded, hlocked⟩ := h
  rw [hlocked, Option.isSome_iff_exists]
  exact exists_congr hguarded

section Guards

variable [DecidableEq T] {s s' : State T} {t : T} {p : Point}

/-- The point of another thread, after one of them has gone on. -/
theorem inside_update {q : Point} {l : LockState} {u : T} (hu : u ≠ t) :
    Inside ⟨l, Function.update s.point t q⟩ u ↔ Inside s u := by
  change Function.update s.point t q u = .inside ↔ _
  rw [Function.update_of_ne hu, Inside]

theorem inside_update_self {q : Point} {l : LockState} :
    Inside ⟨l, Function.update s.point t q⟩ t ↔ q = .inside := by
  change Function.update s.point t q t = .inside ↔ _
  rw [Function.update_self]

/-- A step outside of the critical section. -/
theorem Guards.stay (h : Guards s) (ht : ¬Inside s t) (hp : p ≠ .inside) :
    Guards ⟨s.spinLockState, Function.update s.point t p⟩ := by
  obtain ⟨owner, hguarded, hlocked⟩ := h
  refine ⟨owner, hguarded.stay (t := t) ?_ fun u hu ↦ inside_update hu, hlocked⟩
  rw [inside_update_self]
  exact iff_of_false hp ht

theorem Guards.exchange (h : Guards s) (ht : ¬Inside s t) (hp : p ≠ .inside) :
    Guards (s.exchange t p) := by
  cases hl : s.spinLockState with
  | locked =>
    -- storing `Locked` over itself: only the point of `t` changes
    have hstay := h.stay ht hp
    rw [hl] at hstay
    rw [State.exchange, hl]
    exact hstay
  | unlocked =>
    obtain ⟨owner, hguarded, hlocked⟩ := h
    rw [hl] at hlocked
    -- an open lock has no owner, so `t` can become the first
    cases owner with
    | some u => cases hlocked
    | none =>
      rw [State.exchange, hl]
      refine ⟨some t, hguarded.acquire (inside_update_self.mpr rfl) fun u hu ↦ ?_, rfl⟩
      exact inside_update hu

/-- An exchange by the thread inside finds the lock taken, and changes nothing. -/
theorem Guards.exchange_of_inside (h : Guards s) (ht : Inside s t) :
    s.exchange t (s.point t) = s := by
  have hlocked := h.isLocked_iff.mpr ⟨t, ht⟩
  obtain ⟨state, point⟩ := s
  cases state with
  | unlocked => cases hlocked
  | locked => exact congrArg (State.mk _) (Function.update_eq_self t point)

/-- An `Unlock` that leaves nobody inside. -/
theorem guards_unlock (ht : ∀ u, Inside s u → u = t) :
    Guards ⟨.unlocked, Function.update s.point t .outside⟩ := by
  refine ⟨none, Guarded.none_of_forall fun u hu ↦ ?_, rfl⟩
  by_cases hut : u = t
  · rw [hut, inside_update_self] at hu
    cases hu
  · exact hut (ht u ((inside_update hut).mp hu))

/-- **The step lemma.** -/
theorem guards_step : (machine T).PreservesUnder Owned Guards := by
  intro s s' a h ha hstep
  have hnot {t : T} {p : Point} (hp : s.point t = p) (hne : p ≠ .inside) : ¬Inside s t := by
    rw [Inside, hp]
    exact hne
  cases a with
  | lock t =>
    obtain ⟨hp, ⟨⟩⟩ := Option.ite_none_right_eq_some.mp hstep
    exact h.stay (hnot hp (by decide)) (by decide)
  | spin t =>
    obtain ⟨hp, ⟨⟩⟩ := Option.ite_none_right_eq_some.mp hstep
    exact h.exchange (hnot hp (by decide)) (by decide)
  | tryLock t =>
    obtain ⟨-, ⟨⟩⟩ := Option.ite_none_left_eq_some.mp hstep
    by_cases ht : Inside s t
    · rwa [h.exchange_of_inside ht]
    · exact h.exchange ht ht
  | unlock t =>
    obtain ⟨-, ⟨⟩⟩ := Option.ite_none_left_eq_some.mp hstep
    exact guards_unlock ha

/-- What an `Unlock` of a thread that is not inside leaves open. -/
theorem exists_not_exclusive {u : T} (hu : Inside s u) (hne : u ≠ t)
    (ht : s.point t ≠ .locking) :
    ∃ s', (machine T).run s [.unlock t, .tryLock t] = some s' ∧ ¬Exclusive s' := by
  have hunlock : (machine T).step s (.unlock t) = some _ := if_neg ht
  have hout : Function.update s.point t .outside t ≠ .locking := by
    rw [Function.update_self]
    exact Point.noConfusion
  have htry : (machine T).step ⟨.unlocked, Function.update s.point t .outside⟩ (.tryLock t) =
      some _ := if_neg hout
  -- `u` is still inside when the lock has been opened under it and taken again
  refine ⟨_, (Machine.run_cons_of_step hunlock _).trans (Machine.run_cons_of_step htry []),
    fun hexcl ↦ hne (hexcl u t ?_ ?_)⟩
  · exact (inside_update hne).mpr ((inside_update hne).mpr hu)
  · exact inside_update_self.mpr rfl

end Guards

/-- **Mutual exclusion.** As long as every `Unlock` is made by the thread inside, or with nobody
inside, no two threads are inside, and `IsLocked` says whether one is. From there, an `Unlock` that
is neither lets its thread in beside the other with its next `TryLock`. -/
theorem exclusive_while_owned [DecidableEq T] {as : List (Action T)} {s : State T}
    (hrun : (machine T).run (init T) as = some s) (howned : (machine T).Along Owned (init T) as) :
    Exclusive s ∧ (isLocked s.spinLockState = true ↔ ∃ t, Inside s t) ∧
      ∀ t, s.point t ≠ .locking → ¬Owned s (.unlock t) →
        ∃ s', (machine T).run s [.unlock t, .tryLock t] = some s' ∧ ¬Exclusive s' := by
  have h := guards_step.run guards_init howned hrun
  refine ⟨h.exclusive, h.isLocked_iff, fun t ht hnot ↦ ?_⟩
  rw [Owned] at hnot
  push Not at hnot
  obtain ⟨u, hu, hne⟩ := hnot
  exact exists_not_exclusive hu hne ht

/-- One thread spins while the other is inside, and gets in after it. -/
def handedOver : List (Action Bool) :=
  [.lock false, .spin false, .lock true, .spin true, .unlock false, .spin true]

theorem exclusive_while_owned_handedOver :
    ∃ s, (machine Bool).run (init Bool) handedOver = some s ∧ Inside s true ∧ Exclusive s :=
  ⟨_, rfl, rfl, (@exclusive_while_owned Bool _ handedOver _ rfl (by decide)).1⟩

/-! ## Progress -/

/-- Inside, or with nobody to wait for. -/
def Able (t : T) (s : State T) : Prop := Inside s t ∨ s.spinLockState = .unlocked

/-- The steps that are left before the exchange. -/
def Point.left : Point → ℕ
  | inside => 2
  | outside => 1
  | locking => 0

theorem Guards.exists_able [Nonempty T] {s : State T} (h : Guards s) : ∃ t, Able t s := by
  cases hl : s.spinLockState with
  | unlocked => exact ⟨Classical.arbitrary T, .inr hl⟩
  | locked =>
    obtain ⟨t, ht⟩ := h.isLocked_iff.mp (by rw [hl]; rfl)
    exact ⟨t, .inl ht⟩

/-- The thread gets in with its next step. -/
def acquires [DecidableEq T] (s : State T) (t : T) : Bool :=
  s.point t == .locking && (tryLock s.spinLockState).1

section Progress

variable [DecidableEq T] {s : State T} {t u : T}

/-- The next step of a thread that takes the lock and gives it back for ever. -/
def turn (s : State T) (t : T) : State T :=
  match s.point t with
  | .outside => { s with point := Function.update s.point t .locking }
  | .locking => s.exchange t .locking
  | .inside => ⟨unlock s.spinLockState, Function.update s.point t .outside⟩

theorem turn_of_outside (hp : s.point t = .outside) :
    turn s t = ⟨s.spinLockState, Function.update s.point t .locking⟩ := by
  rw [turn, hp]

theorem turn_of_locking (hp : s.point t = .locking) : turn s t = s.exchange t .locking := by
  rw [turn, hp]

theorem turn_of_inside (hp : s.point t = .inside) :
    turn s t = ⟨.unlocked, Function.update s.point t .outside⟩ := by
  rw [turn, hp, unlock]

theorem Guards.turn (h : Guards s) (t : T) : Guards (turn s t) := by
  cases hp : s.point t with
  | outside =>
    rw [turn_of_outside hp]
    exact h.stay (by rw [Inside, hp]; decide) (by decide)
  | locking =>
    rw [turn_of_locking hp]
    exact h.exchange (by rw [Inside, hp]; decide) (by decide)
  | inside =>
    rw [turn_of_inside hp]
    exact guards_unlock fun u hu ↦ h.exclusive u t hu hp

theorem not_unlocked_of_locking (hp : s.point t = .locking) (hacquires : acquires s t = false) :
    s.spinLockState ≠ .unlocked := by
  intro hunlocked
  rw [acquires, hp, hunlocked] at hacquires
  cases hacquires

/-- A step of the thread itself. -/
theorem Able.own (hable : Able t s) (hacquires : acquires s t = false) :
    Able t (turn s t) ∧ ((turn s t).point t).left < (s.point t).left := by
  cases hp : s.point t with
  | outside =>
    have hunlocked := hable.resolve_left (by rw [Inside, hp]; decide)
    rw [turn_of_outside hp]
    refine ⟨.inr hunlocked, ?_⟩
    change (Function.update s.point t .locking t).left < 1
    rw [Function.update_self]
    exact Nat.one_pos
  | locking =>
    have hunlocked := hable.resolve_left (by rw [Inside, hp]; decide)
    -- an exchange with the lock open would have acquired it
    exact absurd hunlocked (not_unlocked_of_locking hp hacquires)
  | inside =>
    rw [turn_of_inside hp]
    refine ⟨.inr rfl, ?_⟩
    change (Function.update s.point t .outside t).left < 2
    rw [Function.update_self]
    exact Nat.lt_succ_self 1

/-- A step of another thread, which does not take the lock. -/
theorem Able.other (hable : Able t s) (hne : u ≠ t) (hacquires : acquires s u = false) :
    Able t (turn s u) ∧ ((turn s u).point t).left ≤ (s.point t).left := by
  have hstep : (turn s u).point t = s.point t ∧
      (s.spinLockState = .unlocked → (turn s u).spinLockState = .unlocked) := by
    cases hp : s.point u with
    | outside =>
      rw [turn_of_outside hp]
      exact ⟨Function.update_of_ne hne.symm _ _, id⟩
    | locking =>
      rw [turn_of_locking hp]
      exact ⟨Function.update_of_ne hne.symm _ _,
        fun hc ↦ absurd hc (not_unlocked_of_locking hp hacquires)⟩
    | inside =>
      rw [turn_of_inside hp]
      exact ⟨Function.update_of_ne hne.symm _ _, fun _ ↦ rfl⟩
  rw [Able, Inside, hstep.1]
  exact ⟨hable.imp id hstep.2, le_rfl⟩

theorem nonBlocking (T : Type*) [DecidableEq T] [Nonempty T] :
    NonBlocking turn acquires Able (fun t s ↦ (s.point t).left) 3 (Guards : State T → Prop) where
  invariant _ t h := h.turn t
  exists_able _ h := h.exists_able
  lt s t := by cases s.point t <;> decide
  own _ _ _ hable hacquires := hable.own hacquires
  other _ _ _ _ hable hne hacquires := hable.other hne hacquires

/-! ## Starvation -/

/-- One thread has the lock, and the other spins. -/
structure Spins (t u : T) (s : State T) : Prop where
  ne : u ≠ t
  spinning : s.point t = .locking
  inside : s.point u = .inside
  locked : s.spinLockState = .locked

/-- The other gets a step whenever the lock is taken, which it is again after three steps of the
one that has it. -/
theorem Spins.round (h : Spins t u s) :
    [t, u, u, u].foldl turn s = s ∧ events turn acquires s [t, u, u, u] = 1 ∧
      events turn (fun s v ↦ v == t && acquires s v) s [t, u, u, u] = 0 := by
  obtain ⟨state, point⟩ := s
  obtain ⟨hne, hspinning, hinside, hlocked⟩ := h
  change point t = .locking at hspinning
  change point u = .inside at hinside
  change state = .locked at hlocked
  subst hlocked
  have hself (p : Point) : Function.update point u p u = p := Function.update_self u p point
  -- the four steps, each from where the one before has led
  have hspin : turn ⟨.locked, point⟩ t = ⟨.locked, point⟩ := by
    rw [turn_of_locking hspinning]
    exact congrArg (State.mk _) ((congrArg _ hspinning.symm).trans
      (Function.update_eq_self t point))
  have hunlock : turn ⟨.locked, point⟩ u = ⟨.unlocked, Function.update point u .outside⟩ :=
    turn_of_inside hinside
  have hlock : turn ⟨.unlocked, Function.update point u .outside⟩ u =
      ⟨.unlocked, Function.update point u .locking⟩ := by
    rw [turn_of_outside (hself .outside), Function.update_idem]
  have hacquire : turn ⟨.unlocked, Function.update point u .locking⟩ u = ⟨.locked, point⟩ := by
    rw [turn_of_locking (hself .locking)]
    change State.mk .locked (Function.update _ u .inside) = _
    rw [Function.update_idem, ← hinside, Function.update_eq_self]
  have hevent (l : LockState) (p : Point) : acquires ⟨l, Function.update point u p⟩ u =
      (p == .locking && (tryLock l).1) :=
    congrArg (fun q : Point ↦ q == .locking && (tryLock l).1) (hself p)
  have htaken (v : T) : acquires ⟨.locked, point⟩ v = false := Bool.and_false _
  have hother : (u == t) = false := beq_false_of_ne hne
  refine ⟨?_, ?_, ?_⟩
  · rw [List.foldl_cons, List.foldl_cons, List.foldl_cons, List.foldl_cons, hspin, hunlock, hlock,
      hacquire, List.foldl_nil]
  · simp only [events, hspin, hunlock, hlock, htaken, hevent]
    rfl
  · simp only [events, hspin, hunlock, hlock, htaken, hother, Bool.and_false, Bool.false_and]
    rfl

theorem Spins.rounds (h : Spins t u s) (n : ℕ) :
    events turn acquires s (List.replicate n [t, u, u, u]).flatten = n ∧
      events turn (fun s v ↦ v == t && acquires s v) s
        (List.replicate n [t, u, u, u]).flatten = 0 := by
  obtain ⟨hfold, hevents, hnever⟩ := h.round
  induction n with
  | zero => exact ⟨rfl, rfl⟩
  | succ n ih =>
    rw [List.replicate_succ, List.flatten_cons, NonBlocking.events_append,
      NonBlocking.events_append, hfold, hevents, hnever, ih.1, ih.2]
    exact ⟨Nat.add_comm 1 n, rfl⟩

/-- The calls of `Lock` of both, and the first exchange. -/
theorem spins_init (hne : u ≠ t) : Spins t u ([t, u, u].foldl turn (init T)) ∧
    events turn (fun s v ↦ v == t && acquires s v) (init T) [t, u, u] = 0 := by
  let start : T → Point := fun _ ↦ .outside
  let called : T → Point := Function.update start t .locking
  have hfirst : turn (init T) t = ⟨.unlocked, called⟩ := turn_of_outside rfl
  have hout : called u = .outside := Function.update_of_ne hne _ start
  have hsecond : turn ⟨.unlocked, called⟩ u = ⟨.unlocked, Function.update called u .locking⟩ :=
    turn_of_outside hout
  have hthird : turn ⟨.unlocked, Function.update called u .locking⟩ u =
      ⟨.locked, Function.update called u .inside⟩ := by
    rw [turn_of_locking (Function.update_self u _ called)]
    change State.mk .locked (Function.update _ u .inside) = _
    rw [Function.update_idem]
  have hother : (u == t) = false := beq_false_of_ne hne
  constructor
  · rw [List.foldl_cons, List.foldl_cons, List.foldl_cons, List.foldl_nil, hfirst, hsecond, hthird]
    refine ⟨hne, ?_, Function.update_self u _ called, rfl⟩
    exact (Function.update_of_ne hne.symm _ called).trans (Function.update_self t _ start)
  · have houtside : acquires (init T) t = false := rfl
    simp only [events, hother, houtside, Bool.false_and, Bool.and_false]
    rfl

theorem count_rounds (hne : u ≠ t) (n : ℕ) :
    (List.replicate n [t, u, u, u]).flatten.count t = n := by
  have hcount : [t, u, u, u].count t = 1 := by
    rw [List.count_cons_self, List.count_cons_of_ne hne, List.count_cons_of_ne hne,
      List.count_cons_of_ne hne, List.count_nil]
  induction n with
  | zero => rfl
  | succ n ih =>
    rw [List.replicate_succ, List.flatten_cons, List.count_append, hcount, ih, Nat.add_comm]

end Progress

/-- **Some thread gets in, and it need not be this one.** Threads take the lock and give it back for
ever. From wherever an interleaving has led, any further one has the lock taken at least as often as
there are parts of it in which every thread takes three steps. But a thread can take as many steps
as one likes and never get in, while another does every time. -/
theorem lock_does_not_stall [DecidableEq T] [Nonempty T] :
    (∀ (before : List T) (rounds : List (List T)), (∀ ts ∈ rounds, ∀ t, 3 ≤ ts.count t) →
      rounds.length ≤ events turn acquires (before.foldl turn (init T)) rounds.flatten) ∧
    ∀ t u : T, u ≠ t → ∀ n, ∃ ts : List T, n ≤ ts.count t ∧
      n ≤ events turn acquires (init T) ts ∧
      events turn (fun s v ↦ v == t && acquires s v) (init T) ts = 0 := by
  refine ⟨fun before rounds hrounds ↦ ?_, fun t u hne n ↦ ?_⟩
  · have h := nonBlocking T
    exact h.length_le_events (h.foldl guards_init before) hrounds
  · obtain ⟨hspins, hnone⟩ := spins_init hne
    obtain ⟨hevents, hnever⟩ := hspins.rounds n
    refine ⟨[t, u, u] ++ (List.replicate n [t, u, u, u]).flatten, ?_, ?_, ?_⟩
    · rw [List.count_append, count_rounds hne]
      exact Nat.le_add_left n _
    · rw [NonBlocking.events_append, hevents]
      exact Nat.le_add_left n _
    · rw [NonBlocking.events_append, hnever, hnone]

theorem lock_does_not_stall_two_threads :
    [[true, false, true, false, true, false]].length ≤
      events turn acquires ([true].foldl turn (init Bool))
        [[true, false, true, false, true, false]].flatten :=
  lock_does_not_stall.1 [true] _ (List.forall_mem_singleton.mpr (by decide))

end Spinlock

end FulgurLogging
