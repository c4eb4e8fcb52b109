import FulgurLogging.Lib.Machine
import Mathlib.Algebra.Group.Nat.Defs
import Mathlib.Data.Fintype.Basic

/-!
# The dedicated threads of a `ThreadPool`

`SubmitDedicatedTask` draws its slot from an atomic counter and puts the new thread there;
`Shutdown` joins the threads from the last slot to the first, and reads the counter again in every
round. The counter only says how many slots have been drawn, not how many are filled, and the vector
has as many slots as `Initialize` was told.

So there are three ways to a slot that is not there, empty, or joined before: more submissions than
slots, the loop of a `Shutdown` while a submission is between its two steps, and a submission while
the loop goes on, which moves all indices of the remaining rounds up by one. As long as none of them
happens every thread is joined, once, the last one first.

## Waiting

A `join` waits until the task of its thread has returned, and a `Shutdown` waits behind its loop
until the threads of the library pool have ended. A step of a thread that waits changes nothing, and
the returns are steps of their own, which come when they come: a task may return at any time or
never, a thread of the library pool at any time after `stop`. That a thread can be started is taken
for granted.
-/

namespace FulgurLogging

open Transition

namespace ThreadPool

/-- A `std::thread`, with what it runs, whether that has returned, and whether the thread has not
been joined yet. -/
structure Thread (α : Type*) where
  task : α
  returned : Bool
  joinable : Bool
deriving DecidableEq

/-- Where a thread is. In the loop of `Shutdown` it loads the counter twice in each round. -/
inductive Point (α : Type*)
  | idle
  | assigning (threadId : UInt64) (task : α)
  | testing (i : UInt64)
  | indexing (i : UInt64)
  | joining (i index : UInt64)
  | stopping
  | joiningAll
deriving DecidableEq

def Point.inLoop {α : Type*} : Point α → Bool
  | testing _ | indexing _ | joining .. => true
  | idle | assigning .. | stopping | joiningAll => false

/-- Between the two steps of a submission. -/
def Point.isAssigning {α : Type*} : Point α → Bool
  | assigning .. => true
  | idle | testing _ | indexing _ | joining .. | stopping | joiningAll => false

/-- Not about to use a slot. -/
def Point.isClear {α : Type*} (p : Point α) : Bool := !p.inLoop && !p.isAssigning

variable {T α : Type*}

/-- The pool and its callers, with the tasks in the order of their slots and the slots that have
been joined. -/
structure State (T α : Type*) where
  currentThreadCount : UInt64
  dedicatedThreads : List (Option (Thread α))
  /-- Whether `io_service_` has been stopped. -/
  stopped : Bool
  /-- The threads of `thread_pool_` that have not ended. -/
  poolThreads : ℕ
  point : T → Point α
  submitted : List α
  joined : List ℕ

inductive Action (T α : Type*)
  | submitDedicatedTask (t : T) (task : α)
  | shutdown (t : T)
  | advance (t : T)
  | taskReturns (slot : ℕ)
  | poolThreadEnds

def Action.isCall : Action T α → Bool
  | submitDedicatedTask .. | shutdown _ => true
  | advance _ | taskReturns _ | poolThreadEnds => false

/-- A step of no caller. -/
def Action.isReturn : Action T α → Bool
  | taskReturns _ | poolThreadEnds => true
  | submitDedicatedTask .. | shutdown _ | advance _ => false

/-- After `Initialize`. -/
def initializePool (T α : Type*) (poolSize dedicatedThreadCount : UInt64) : State T α :=
  ⟨0, List.replicate dedicatedThreadCount.toNat none, false, poolSize.toNat, fun _ ↦ .idle, [], []⟩

/-- `dedicated_threads_[thread_id].reset(...)`. A thread that is dropped while it can be joined ends
the program. -/
def reset (threads : List (Option (Thread α))) (threadId : UInt64) (thread : Thread α) :
    Option (List (Option (Thread α))) :=
  match threads[threadId.toNat]? with
  | none => none
  | some old =>
      if old.any Thread.joinable then none
      else some (threads.set threadId.toNat (some thread))

/-- `dedicated_threads_[index]->join()`, with nothing to go on with while the task has not returned.
-/
def join (threads : List (Option (Thread α))) (index : UInt64) :
    Option (Option (List (Option (Thread α)))) :=
  match threads[index.toNat]? with
  | some (some thread) =>
      if thread.joinable then
        some (if thread.returned then
          some (threads.set index.toNat (some { thread with joinable := false })) else none)
      else none
  | _ => none

/-- The task in the slot returns. -/
def finish (threads : List (Option (Thread α))) (slot : ℕ) : Option (List (Option (Thread α))) :=
  match threads[slot]? with
  | some (some thread) =>
      if thread.returned then none
      else some (threads.set slot (some { thread with returned := true }))
  | _ => none

section Step

variable [DecidableEq T]

def State.goTo (s : State T α) (t : T) (p : Point α) : State T α :=
  { s with point := Function.update s.point t p }

theorem point_goTo (s : State T α) (t : T) (p : Point α) : (s.goTo t p).point t = p :=
  Function.update_self _ _ _

/-- The slot has been drawn. -/
def State.afterDraw (s : State T α) (t : T) (task : α) : State T α :=
  { s with currentThreadCount := s.currentThreadCount + 1,
           point := Function.update s.point t (.assigning s.currentThreadCount task),
           submitted := s.submitted ++ [task] }

/-- The next round, with the slots that a `join` has left. -/
def State.afterJoin (s : State T α) (t : T) (i index : UInt64)
    (threads : List (Option (Thread α))) : State T α :=
  { s with dedicatedThreads := threads, joined := s.joined ++ [index.toNat],
           point := Function.update s.point t (.testing (i + 1)) }

/-- One step; there is none where an access goes wrong. -/
def step (s : State T α) : Action T α → Option (State T α)
  | .submitDedicatedTask t task =>
      match s.point t with
      | .idle => some (s.afterDraw t task)
      | _ => none
  | .shutdown t =>
      match s.point t with
      | .idle => some (s.goTo t (.testing 0))
      | _ => none
  | .advance t =>
      match s.point t with
      | .idle => none
      | .assigning threadId task =>
          (reset s.dedicatedThreads threadId ⟨task, false, true⟩).map fun threads ↦
            { s with dedicatedThreads := threads, point := Function.update s.point t .idle }
      | .testing i =>
          if i < s.currentThreadCount then some (s.goTo t (.indexing i))
          else some (s.goTo t .stopping)
      | .indexing i => some (s.goTo t (.joining i (s.currentThreadCount - 1 - i)))
      | .joining i index =>
          (join s.dedicatedThreads index).map fun joined ↦ joined.elim s (s.afterJoin t i index)
      | .stopping => some { s with stopped := true, point := Function.update s.point t .joiningAll }
      -- `join_all` waits for the threads of the library pool
      | .joiningAll => if s.poolThreads = 0 then some (s.goTo t .idle) else some s
  | .taskReturns slot =>
      (finish s.dedicatedThreads slot).map fun threads ↦ { s with dedicatedThreads := threads }
  | .poolThreadEnds =>
      if s.stopped ∧ 0 < s.poolThreads then some { s with poolThreads := s.poolThreads - 1 }
      else none

variable (T α) in
def machine : Machine (State T α) (Action T α) := ⟨step⟩

/-- No access is about to go wrong. -/
def Safe (s : State T α) : Prop := ∀ t, s.point t ≠ .idle → (step s (.advance t)).isSome = true

end Step

/-- Submissions find a slot, and none of them overlaps with the loop of a `Shutdown`, which is the
only one to join threads. -/
def Orderly (s : State T α) : Action T α → Prop
  | .submitDedicatedTask _ _ =>
      s.currentThreadCount.toNat < s.dedicatedThreads.length ∧ ∀ u, (s.point u).inLoop = false
  | .shutdown _ => s.joined = [] ∧ ∀ u, (s.point u).isClear = true
  | .advance _ | .taskReturns _ | .poolThreadEnds => True

instance [Fintype T] (s : State T α) : ∀ a, Decidable (Orderly s a)
  | .submitDedicatedTask _ _ => inferInstanceAs (Decidable (_ ∧ ∀ u, (s.point u).inLoop = false))
  | .shutdown _ => inferInstanceAs (Decidable (s.joined = [] ∧ ∀ u, (s.point u).isClear = true))
  | .advance _ | .taskReturns _ | .poolThreadEnds => isTrue trivial

/-! ## The slots -/

/-- What the slots contain: nothing where a submission is between its two steps, or where nothing
was submitted, and else the thread of the task. -/
structure Filled (threads : List (Option (Thread α))) (point : T → Point α) (submitted : List α)
    (joined : List ℕ) : Prop where
  room : submitted.length ≤ threads.length
  pending : ∀ t i a, point t = .assigning i a →
    submitted[i.toNat]? = some a ∧ threads[i.toNat]? = some none ∧ i.toNat ∉ joined
  apart : ∀ t u i a b, point t = .assigning i a → point u = .assigning i b → t = u
  filled : ∀ i a, submitted[i]? = some a → (∃ t j, point t = .assigning j a ∧ j.toNat = i) ∨
    ∃ returned, threads[i]? = some (some ⟨a, returned, decide (i ∉ joined)⟩) ∧
      (i ∈ joined → returned = true)
  free : ∀ i, submitted.length ≤ i → i < threads.length → threads[i]? = some none

section Filled

variable [DecidableEq T] {threads : List (Option (Thread α))} {point : T → Point α}
  {submitted : List α} {joined : List ℕ} {t u : T} {p : Point α} {i : UInt64} {a : α}

theorem update_eq_assigning (h : Function.update point t p u = .assigning i a) :
    (u = t ∧ p = .assigning i a) ∨ (u ≠ t ∧ point u = .assigning i a) := by
  by_cases hu : u = t
  · rw [hu, Function.update_self] at h
    exact .inl ⟨hu, h⟩
  · rw [Function.update_of_ne hu] at h
    exact .inr ⟨hu, h⟩

namespace Filled

/-- A step that neither begins nor ends a submission. -/
theorem goTo (h : Filled threads point submitted joined) (ht : (point t).isAssigning = false)
    (hp : p.isAssigning = false) :
    Filled threads (Function.update point t p) submitted joined := by
  have hold {u : T} {i : UInt64} {a : α} (hu : Function.update point t p u = .assigning i a) :
      point u = .assigning i a := by
    rcases update_eq_assigning hu with ⟨-, rfl⟩ | ⟨-, hu⟩
    · exact absurd hp nofun
    · exact hu
  refine ⟨h.room, fun u i a hu ↦ h.pending u i a (hold hu),
    fun u w i a b hu hw ↦ h.apart u w i a b (hold hu) (hold hw), fun i a ha ↦ ?_, h.free⟩
  refine (h.filled i a ha).imp_left fun ⟨u, j, hu, hj⟩ ↦ ⟨u, j, ?_, hj⟩
  have hne : u ≠ t := by
    rintro rfl
    rw [hu] at ht
    exact absurd ht nofun
  rw [Function.update_of_ne hne, hu]

/-- A submission draws its slot. -/
theorem submit (h : Filled threads point submitted joined) (ht : point t = .idle)
    (hroom : submitted.length < threads.length) (hi : i.toNat = submitted.length)
    (hjoined : i.toNat ∉ joined) (a : α) :
    Filled threads (Function.update point t (.assigning i a)) (submitted ++ [a]) joined := by
  have hlt {j : ℕ} {b : α} (hb : submitted[j]? = some b) : j < submitted.length :=
    (List.getElem?_eq_some_iff.mp hb).1
  refine ⟨?_, fun u j b hu ↦ ?_, fun u w j b c hu hw ↦ ?_, fun j b hb ↦ ?_, fun j hj ↦ ?_⟩
  · rw [List.length_append, List.length_singleton]
    exact hroom
  · rcases update_eq_assigning hu with ⟨-, hnew⟩ | ⟨-, hu⟩
    · cases hnew
      rw [hi, List.getElem?_concat_length, ← hi]
      exact ⟨rfl, h.free _ (Nat.le_of_eq hi.symm) (hi ▸ hroom), hjoined⟩
    · obtain ⟨hb, hrest⟩ := h.pending u j b hu
      rw [List.getElem?_append_left (hlt hb)]
      exact ⟨hb, hrest⟩
  · -- the slot drawn now is past all those that were drawn before
    have hother {v : T} {d : α} (hv : point v = .assigning i d) : False := by
      have := hlt (h.pending v i d hv).1
      omega
    rcases update_eq_assigning hu with ⟨rfl, hnew⟩ | ⟨-, hu⟩
    · cases hnew
      rcases update_eq_assigning hw with ⟨rfl, -⟩ | ⟨-, hw⟩
      · rfl
      · exact (hother hw).elim
    · rcases update_eq_assigning hw with ⟨-, hnew⟩ | ⟨-, hw⟩
      · cases hnew
        exact (hother hu).elim
      · exact h.apart u w j b c hu hw
  · by_cases hj : j < submitted.length
    · rw [List.getElem?_append_left hj] at hb
      refine (h.filled j b hb).imp_left fun ⟨u, k, hu, hk⟩ ↦ ⟨u, k, ?_, hk⟩
      have hne : u ≠ t := by
        rintro rfl
        rw [ht] at hu
        exact absurd hu nofun
      rw [Function.update_of_ne hne, hu]
    · have hlen := (List.getElem?_eq_some_iff.mp hb).1
      rw [List.length_append, List.length_singleton] at hlen
      have hj : j = submitted.length := by omega
      rw [hj, List.getElem?_concat_length, Option.some_inj] at hb
      exact .inl ⟨t, i, by rw [Function.update_self, hb], hi.trans hj.symm⟩
  · rw [List.length_append, List.length_singleton] at hj
    exact h.free j (by omega)

/-- It puts the thread there. -/
theorem assign (h : Filled threads point submitted joined) (ht : point t = .assigning i a) :
    Filled (threads.set i.toNat (some ⟨a, false, true⟩)) (Function.update point t .idle) submitted
      joined := by
  obtain ⟨ha, hslot, hjoined⟩ := h.pending t i a ht
  have hlt : i.toNat < threads.length := (List.getElem?_eq_some_iff.mp hslot).1
  have hold {u : T} {j : UInt64} {b : α} (hu : Function.update point t .idle u = .assigning j b) :
      u ≠ t ∧ point u = .assigning j b := by
    rcases update_eq_assigning hu with ⟨-, hidle⟩ | hu
    · exact absurd hidle nofun
    · exact hu
  refine ⟨h.room.trans_eq List.length_set.symm, fun u j b hu ↦ ?_, fun u w j b c hu hw ↦ ?_,
    fun j b hb ↦ ?_, fun j hj hjlt ↦ ?_⟩
  · -- the other submissions have slots of their own, which this one leaves alone
    obtain ⟨hut, hu⟩ := hold hu
    obtain ⟨hb, hempty, hnot⟩ := h.pending u j b hu
    have hne : i.toNat ≠ j.toNat := by
      intro heq
      rw [UInt64.toNat_inj] at heq
      subst heq
      exact hut (h.apart u t i b a hu ht)
    exact ⟨hb, (List.getElem?_set_ne hne).trans hempty, hnot⟩
  · exact h.apart u w j b c (hold hu).2 (hold hw).2
  · by_cases hji : i.toNat = j
    · subst hji
      rw [ha, Option.some_inj] at hb
      rw [List.getElem?_set_self hlt, ← hb, decide_eq_true hjoined]
      exact .inr ⟨false, rfl, fun hmem ↦ absurd hmem hjoined⟩
    · rw [List.getElem?_set_ne hji]
      refine (h.filled j b hb).imp_left fun ⟨u, k, hu, hk⟩ ↦ ⟨u, k, ?_, hk⟩
      have hne : u ≠ t := by
        rintro rfl
        rw [ht] at hu
        cases hu
        exact hji hk
      rw [Function.update_of_ne hne, hu]
  · have hne : i.toNat ≠ j := fun heq ↦ by
      have := (List.getElem?_eq_some_iff.mp ha).1
      omega
    rw [List.getElem?_set_ne hne]
    exact h.free j hj (by rwa [List.length_set] at hjlt)

/-- A thread is joined. -/
theorem join (h : Filled threads point submitted joined) (ht : (point t).isAssigning = false)
    (hp : p.isAssigning = false) {n : ℕ}
    (hslot : threads[n]? = some (some ⟨a, true, true⟩)) :
    Filled (threads.set n (some ⟨a, true, false⟩)) (Function.update point t p) submitted
      (joined ++ [n]) := by
  have hlt : n < threads.length := (List.getElem?_eq_some_iff.mp hslot).1
  have h' := h.goTo ht hp
  refine ⟨h'.room.trans_eq List.length_set.symm, fun u j b hu ↦ ?_, h'.apart, fun j b hb ↦ ?_,
    fun j hj hjlt ↦ ?_⟩
  · -- a slot with a thread in it is not one that a submission is about to fill
    obtain ⟨hb, hempty, hnot⟩ := h'.pending u j b hu
    have hne : n ≠ j.toNat := by
      rintro rfl
      rw [hslot] at hempty
      exact absurd hempty nofun
    refine ⟨hb, (List.getElem?_set_ne hne).trans hempty, fun hmem ↦ ?_⟩
    rcases List.mem_append.mp hmem with hmem | hmem
    · exact hnot hmem
    · exact hne (List.mem_singleton.mp hmem).symm
  · rcases h'.filled j b hb with hpending | ⟨returned, hfilled, hreturned⟩
    · exact .inl hpending
    · refine .inr ?_
      by_cases hjn : n = j
      · subst hjn
        rw [hslot, Option.some_inj, Option.some_inj] at hfilled
        obtain ⟨rfl, -, -⟩ := Thread.mk.injEq _ _ _ _ _ _ ▸ hfilled
        have hmem : n ∈ joined ++ [n] := List.mem_append_right joined (List.mem_singleton_self n)
        refine ⟨true, ?_, fun _ ↦ rfl⟩
        rw [List.getElem?_set_self hlt, decide_eq_false]
        exact fun hnot ↦ hnot hmem
      · have hiff : j ∈ joined ++ [n] ↔ j ∈ joined := by
          rw [List.mem_append, List.mem_singleton, or_iff_left (Ne.symm hjn)]
        refine ⟨returned, ?_, fun hmem ↦ hreturned (hiff.mp hmem)⟩
        rw [List.getElem?_set_ne hjn, hfilled, decide_eq_decide.mpr (not_congr hiff)]
  · by_cases hjn : n = j
    · subst hjn
      rw [h'.free n hj (by rwa [List.length_set] at hjlt)] at hslot
      exact absurd hslot nofun
    · rw [List.getElem?_set_ne hjn]
      exact h'.free j hj (by rwa [List.length_set] at hjlt)

omit [DecidableEq T] in
/-- A task returns. -/
theorem finish (h : Filled threads point submitted joined) {slot : ℕ} {thread : Thread α}
    (hslot : threads[slot]? = some (some thread)) :
    Filled (threads.set slot (some { thread with returned := true })) point submitted joined := by
  have hlt : slot < threads.length := (List.getElem?_eq_some_iff.mp hslot).1
  have hne {j : ℕ} (hj : threads[j]? = some none) : slot ≠ j := by
    rintro rfl
    rw [hslot] at hj
    exact absurd hj nofun
  refine ⟨h.room.trans_eq List.length_set.symm, fun u j b hu ↦ ?_, h.apart, fun j b hb ↦ ?_,
    fun j hj hjlt ↦ ?_⟩
  · obtain ⟨hb, hempty, hnot⟩ := h.pending u j b hu
    exact ⟨hb, (List.getElem?_set_ne (hne hempty)).trans hempty, hnot⟩
  · rcases h.filled j b hb with hpending | ⟨returned, hfilled, hreturned⟩
    · exact .inl hpending
    · refine .inr ?_
      by_cases hj : slot = j
      · subst hj
        rw [hslot, Option.some_inj, Option.some_inj] at hfilled
        subst hfilled
        exact ⟨true, List.getElem?_set_self hlt, fun _ ↦ rfl⟩
      · exact ⟨returned, (List.getElem?_set_ne hj).trans hfilled, hreturned⟩
  · have hempty := h.free j hj (by rwa [List.length_set] at hjlt)
    exact (List.getElem?_set_ne (hne hempty)).trans hempty

end Filled

end Filled

/-! ## The rounds of `Shutdown` -/

/-- In round `i` of a loop over `c` threads. -/
inductive Round (c : ℕ) : ℕ → Point α → Prop
  | testing {i : ℕ} (hi : i ≤ c) : Round c i (.testing (.ofNat i))
  | indexing {i : ℕ} (hi : i < c) : Round c i (.indexing (.ofNat i))
  | joining {i : ℕ} (hi : i < c) : Round c i (.joining (.ofNat i) (.ofNat (c - 1 - i)))

theorem Round.inLoop {c i : ℕ} {p : Point α} (h : Round c i p) : p.inLoop = true := by
  cases h <;> rfl

/-- The slots below `c`, the last one first. -/
def downFrom (c : ℕ) : List ℕ := (List.range c).reverse

theorem mem_downFrom {c j : ℕ} : j ∈ downFrom c ↔ j < c := by
  rw [downFrom, List.mem_reverse, List.mem_range]

theorem length_downFrom (c : ℕ) : (downFrom c).length = c := by
  rw [downFrom, List.length_reverse, List.length_range]

theorem getElem_downFrom {c i : ℕ} (h : i < (downFrom c).length) :
    (downFrom c)[i] = c - 1 - i := by
  simp only [downFrom, List.getElem_reverse, List.length_range, List.getElem_range]

theorem take_succ_downFrom {c i : ℕ} (hi : i < c) :
    (downFrom c).take (i + 1) = (downFrom c).take i ++ [c - 1 - i] := by
  rw [List.take_succ_eq_append_getElem (by rwa [length_downFrom]), getElem_downFrom]

theorem mem_take_downFrom {c i j : ℕ} : j ∈ (downFrom c).take i ↔ j < c ∧ c ≤ j + i := by
  simp only [List.mem_take_iff_getElem, length_downFrom, getElem_downFrom]
  constructor
  · rintro ⟨k, hk, hget⟩
    omega
  · rintro ⟨hj, hji⟩
    exact ⟨c - 1 - j, by omega, by omega⟩

/-! ## A round, step by step -/

section Rounds

variable [DecidableEq T] {s : State T α} {t : T} {c i : ℕ}

theorem ofNat_lt_iff (hc : c < 2 ^ 64) (hi : i ≤ c) : UInt64.ofNat i < .ofNat c ↔ i < c := by
  rw [UInt64.lt_iff_toNat_lt, UInt64.toNat_ofNat_of_lt' hc,
    UInt64.toNat_ofNat_of_lt' (lt_of_le_of_lt hi hc)]

theorem step_testing (hc : c < 2 ^ 64) (hcount : s.currentThreadCount = .ofNat c) (hi : i < c)
    (hp : s.point t = .testing (.ofNat i)) :
    (machine T α).step s (.advance t) = some (s.goTo t (.indexing (.ofNat i))) := by
  have hlt : UInt64.ofNat i < s.currentThreadCount := hcount ▸ (ofNat_lt_iff hc hi.le).mpr hi
  simp only [machine, step, hp, if_pos hlt]

/-- The loop ends. -/
theorem step_testing_last (hc : c < 2 ^ 64) (hcount : s.currentThreadCount = .ofNat c)
    (hp : s.point t = .testing (.ofNat c)) :
    (machine T α).step s (.advance t) = some (s.goTo t .stopping) := by
  have hnot : ¬UInt64.ofNat c < s.currentThreadCount := by
    rw [hcount, ofNat_lt_iff hc le_rfl]
    exact lt_irrefl c
  simp only [machine, step, hp, if_neg hnot]

theorem step_indexing (hcount : s.currentThreadCount = .ofNat c) (hi : i < c)
    (hp : s.point t = .indexing (.ofNat i)) : (machine T α).step s (.advance t) =
      some (s.goTo t (.joining (.ofNat i) (.ofNat (c - 1 - i)))) := by
  have hindex : s.currentThreadCount - 1 - .ofNat i = .ofNat (c - 1 - i) := by
    rw [hcount, UInt64.ofNat_sub (by omega), UInt64.ofNat_sub (by omega)]
    rfl
  simp only [machine, step, hp, hindex]

/-- A `join` of a thread whose task has returned. -/
theorem step_joining {j index : UInt64} {a : α} (hp : s.point t = .joining j index)
    (hslot : s.dedicatedThreads[index.toNat]? = some (some ⟨a, true, true⟩)) :
    (machine T α).step s (.advance t) = some (s.afterJoin t j index
      (s.dedicatedThreads.set index.toNat (some ⟨a, true, false⟩))) := by
  simp only [machine, step, hp, join, hslot, if_true, Option.map_some, Option.elim_some]

/-- A `join` that waits. -/
theorem step_joining_waits {j index : UInt64} {a : α} (hp : s.point t = .joining j index)
    (hslot : s.dedicatedThreads[index.toNat]? = some (some ⟨a, false, true⟩)) :
    (machine T α).step s (.advance t) = some s := by
  simp only [machine, step, hp, join, hslot, if_true, Bool.false_eq_true, if_false,
    Option.map_some, Option.elim_none]

theorem step_taskReturns {slot : ℕ} {a : α} {joinable : Bool}
    (hslot : s.dedicatedThreads[slot]? = some (some ⟨a, false, joinable⟩)) :
    (machine T α).step s (.taskReturns slot) = some { s with
      dedicatedThreads := s.dedicatedThreads.set slot (some ⟨a, true, joinable⟩) } := by
  simp only [machine, step, finish, hslot, Bool.false_eq_true, if_false, Option.map_some]

/-- What a return of a task does. -/
theorem exists_of_step_taskReturns {s' : State T α} {slot : ℕ}
    (h : step s (.taskReturns slot) = some s') :
    ∃ thread, s.dedicatedThreads[slot]? = some (some thread) ∧
      s' = { s with dedicatedThreads :=
        s.dedicatedThreads.set slot (some { thread with returned := true }) } := by
  rw [step, Option.map_eq_some_iff] at h
  obtain ⟨threads, hfinish, rfl⟩ := h
  rw [finish] at hfinish
  split at hfinish
  next thread hslot =>
    obtain ⟨-, hset⟩ := Option.ite_none_left_eq_some.mp hfinish
    exact ⟨thread, hslot, by rw [← Option.some_inj.mp hset]⟩
  next => cases hfinish

theorem toNat_index (hc : c < 2 ^ 64) (hi : i < c) :
    (UInt64.ofNat (c - 1 - i)).toNat = c - 1 - i :=
  UInt64.toNat_ofNat_of_lt' (lt_of_le_of_lt (by omega) hc)

theorem point_afterJoin {index : UInt64} {threads : List (Option (Thread α))} :
    (s.afterJoin t (.ofNat i) index threads).point t = .testing (.ofNat (i + 1)) :=
  (Function.update_self _ _ _).trans (congrArg _ (UInt64.ofNat_add i 1).symm)

theorem round_afterJoin {index : UInt64} {threads : List (Option (Thread α))} (hi : i + 1 ≤ c) :
    Round c (i + 1) ((s.afterJoin t (.ofNat i) index threads).point t) := by
  rw [point_afterJoin]
  exact .testing hi

end Rounds

/-! ## The invariant -/

/-- What goes on: submissions, after the first `done` threads have been joined, or the loop of a
`Shutdown` and no submission. -/
inductive Phase (point : T → Point α) (count : ℕ) (joined : List ℕ) : Prop
  | submitting (done : ℕ) (hdone : done ≤ count) (hjoined : joined = downFrom done)
      (hout : ∀ t, (point t).inLoop = false)
      (hpending : ∀ t i a, point t = .assigning i a → done ≤ i.toNat)
  | shutting (t : T) (i : ℕ) (hothers : ∀ u, u ≠ t → (point u).isClear = true)
      (hround : Round count i (point t)) (hjoined : joined = (downFrom count).take i)

theorem Point.inLoop_of_isClear {p : Point α} (h : p.isClear = true) : p.inLoop = false := by
  cases p <;> first | rfl | cases h

theorem Point.isAssigning_of_isClear {p : Point α} (h : p.isClear = true) :
    p.isAssigning = false := by
  cases p <;> first | rfl | cases h

/-- A clear point is not one of those that use a slot. -/
theorem ne_assigning_of_isClear {p : Point α} (h : p.isClear = true) (i : UInt64) (a : α) :
    p ≠ .assigning i a := by
  rintro rfl
  exact absurd h nofun

theorem inLoop_update [DecidableEq T] {point : T → Point α} {t : T} {p : Point α}
    (hp : p.inLoop = false) (hout : ∀ u, (point u).inLoop = false) (u : T) :
    (Function.update point t p u).inLoop = false := by
  by_cases hut : u = t
  · rw [hut, Function.update_self, hp]
  · rw [Function.update_of_ne hut, hout]

/-- What every step of an orderly run preserves. -/
structure Tidy (s : State T α) : Prop where
  count : s.currentThreadCount.toNat = s.submitted.length
  bound : s.dedicatedThreads.length < 2 ^ 64
  filled : Filled s.dedicatedThreads s.point s.submitted s.joined
  phase : Phase s.point s.submitted.length s.joined

theorem tidy_initializePool (poolSize n : UInt64) : Tidy (initializePool T α poolSize n) where
  count := rfl
  bound := by
    rw [initializePool, List.length_replicate]
    exact n.toNat_lt
  filled := by
    refine ⟨Nat.zero_le _, fun t i a ht ↦ ?_, fun t u i a b ht ↦ ?_, fun i a ha ↦ ?_,
      fun i _ hi ↦ ?_⟩
    · exact absurd ht nofun
    · exact absurd ht nofun
    · exact absurd ha nofun
    · rw [initializePool, List.length_replicate] at hi
      rw [initializePool, List.getElem?_replicate_of_lt hi]
  phase := by
    refine .submitting 0 le_rfl rfl (fun _ ↦ rfl) fun t i a ht ↦ ?_
    exact absurd ht nofun

namespace Tidy

variable {s s' : State T α} {t u : T} {i : ℕ}

/-- The counter in the rounds of the loop. -/
theorem ofNat_count (h : Tidy s) : s.currentThreadCount = .ofNat s.submitted.length := by
  rw [← h.count, UInt64.ofNat_toNat]

theorem count_lt (h : Tidy s) : s.submitted.length < 2 ^ 64 :=
  h.filled.room.trans_lt h.bound

/-- A thread in the loop of `Shutdown` is there alone. -/
theorem shutting (h : Tidy s) (ht : (s.point t).inLoop = true) :
    ∃ i, (∀ u, u ≠ t → (s.point u).isClear = true) ∧ Round s.submitted.length i (s.point t) ∧
      s.joined = (downFrom s.submitted.length).take i := by
  rcases h.phase with ⟨done, -, -, hout, -⟩ | ⟨u, i, hothers, hround, hjoined⟩
  · rw [hout t] at ht
    exact absurd ht nofun
  · by_cases htu : t = u
    · exact ⟨i, htu ▸ hothers, htu ▸ hround, hjoined⟩
    · rw [Point.inLoop_of_isClear (hothers t htu)] at ht
      exact absurd ht nofun

/-- A task returns. -/
theorem finish (h : Tidy s) {slot : ℕ} {thread : Thread α}
    (hslot : s.dedicatedThreads[slot]? = some (some thread)) :
    Tidy { s with dedicatedThreads :=
      s.dedicatedThreads.set slot (some { thread with returned := true }) } :=
  ⟨h.count, List.length_set.trans_lt h.bound, h.filled.finish hslot, h.phase⟩

variable [DecidableEq T]

theorem submit (h : Tidy s) (ht : s.point t = .idle)
    (hroom : s.currentThreadCount.toNat < s.dedicatedThreads.length)
    (hout : ∀ u, (s.point u).inLoop = false) (a : α) :
    Tidy (s.afterDraw t a) := by
  have hcount := h.count
  have hbound := h.bound
  rcases h.phase with ⟨done, hdone, hjoined, -, hpending⟩ | ⟨u, i, -, hround, -⟩
  · -- a `Shutdown` before has joined the first `done` slots only
    have hnot : s.currentThreadCount.toNat ∉ s.joined := by
      rw [hjoined, mem_downFrom, hcount]
      omega
    refine ⟨?_, hbound, h.filled.submit ht (hcount ▸ hroom) hcount hnot a, ?_⟩
    · rw [State.afterDraw, UInt64.toNat_add, UInt64.toNat_one, hcount, List.length_append,
        List.length_singleton, Nat.mod_eq_of_lt (by omega)]
    · refine .submitting done ?_ hjoined (inLoop_update rfl hout) fun u i b hu ↦ ?_
      · rw [State.afterDraw, List.length_append]
        exact hdone.trans (Nat.le_add_right _ _)
      · rcases update_eq_assigning hu with ⟨-, hnew⟩ | ⟨-, hu⟩
        · cases hnew
          rw [hcount]
          exact hdone
        · exact hpending u i b hu
  · exact absurd hround.inLoop (by rw [hout u]; exact Bool.false_ne_true)

theorem shutdown (h : Tidy s) (hjoined : s.joined = [])
    (hclear : ∀ u, (s.point u).isClear = true) (t : T) : Tidy (s.goTo t (.testing 0)) := by
  refine ⟨h.count, h.bound, h.filled.goTo (Point.isAssigning_of_isClear (hclear t)) rfl, ?_⟩
  refine .shutting t 0 (fun u hu ↦ ?_) ?_ hjoined
  · exact (congrArg Point.isClear (Function.update_of_ne hu _ _)).trans (hclear u)
  · rw [point_goTo]
    exact .testing (Nat.zero_le _)

/-- The thread in the loop goes on. -/
theorem shutting_update {point : T → Point α} {p : Point α} {count : ℕ} {joined : List ℕ}
    (hothers : ∀ u, u ≠ t → (point u).isClear = true) (hround : Round count i p)
    (hjoined : joined = (downFrom count).take i) :
    Phase (Function.update point t p) count joined := by
  refine .shutting t i (fun u hu ↦ ?_) ?_ hjoined
  · rw [Function.update_of_ne hu]
    exact hothers u hu
  · rwa [Function.update_self]

/-- A step outside of the slots. -/
theorem clear_update {point : T → Point α} {p : Point α} {count : ℕ} {joined : List ℕ}
    (h : Phase point count joined) (ht : (point t).isClear = true) (hp : p.isClear = true) :
    Phase (Function.update point t p) count joined := by
  rcases h with ⟨done, hdone, hjoined, hout, hpending⟩ | ⟨u, i, hothers, hround, hjoined⟩
  · refine .submitting done hdone hjoined (inLoop_update (Point.inLoop_of_isClear hp) hout)
      fun u i a hu ↦ ?_
    rcases update_eq_assigning hu with ⟨-, rfl⟩ | ⟨-, hu⟩
    · exact absurd hp nofun
    · exact hpending u i a hu
  · have hut : u ≠ t := by
      rintro rfl
      exact absurd hround.inLoop (by rw [Point.inLoop_of_isClear ht]; exact Bool.false_ne_true)
    refine .shutting u i (fun w hw ↦ ?_) ?_ hjoined
    · by_cases hwt : w = t
      · rwa [hwt, Function.update_self]
      · rw [Function.update_of_ne hwt]
        exact hothers w hw
    · rwa [Function.update_of_ne hut]

theorem advance_assigning (h : Tidy s) {j : UInt64} {a : α} (hp : s.point t = .assigning j a) :
    ∃ s', step s (.advance t) = some s' ∧ Tidy s' := by
  obtain ⟨ha, hslot, hnot⟩ := h.filled.pending t j a hp
  have hreset : reset s.dedicatedThreads j ⟨a, false, true⟩ =
      some (s.dedicatedThreads.set j.toNat (some ⟨a, false, true⟩)) := by
    rw [reset, hslot]
    rfl
  simp only [step, hp, hreset, Option.map_some]
  refine ⟨_, rfl, h.count, List.length_set.trans_lt h.bound, h.filled.assign hp, ?_⟩
  rcases h.phase with ⟨done, hdone, hjoined, hout, hpending⟩ | ⟨u, k, hothers, hround, -⟩
  · refine .submitting done hdone hjoined (inLoop_update rfl hout) fun u k b hu ↦ ?_
    rcases update_eq_assigning hu with ⟨-, hidle⟩ | ⟨-, hu⟩
    · exact absurd hidle nofun
    · exact hpending u k b hu
  · have htu : t = u := by
      by_contra hne
      have hclear := hothers t hne
      rw [hp] at hclear
      exact absurd hclear nofun
    rw [← htu, hp] at hround
    exact absurd hround nofun

theorem advance_stopping (h : Tidy s) (hp : s.point t = .stopping) :
    ∃ s', step s (.advance t) = some s' ∧ Tidy s' := by
  simp only [step, hp]
  refine ⟨_, rfl, h.count, h.bound, h.filled.goTo (by rw [hp]; rfl) rfl, ?_⟩
  exact clear_update h.phase (by rw [hp]; rfl) rfl

theorem advance_joiningAll (h : Tidy s) (hp : s.point t = .joiningAll) :
    ∃ s', step s (.advance t) = some s' ∧ Tidy s' := by
  simp only [step, hp]
  split_ifs
  · refine ⟨_, rfl, h.count, h.bound, h.filled.goTo (by rw [hp]; rfl) rfl, ?_⟩
    exact clear_update h.phase (by rw [hp]; rfl) rfl
  · exact ⟨s, rfl, h⟩

section Shutting

variable (hothers : ∀ u, u ≠ t → (s.point u).isClear = true)
  (hjoined : s.joined = (downFrom s.submitted.length).take i)
include hothers hjoined

theorem advance_testing (h : Tidy s) (hi : i < s.submitted.length)
    (hp : s.point t = .testing (.ofNat i)) : ∃ s', step s (.advance t) = some s' ∧ Tidy s' := by
  refine ⟨_, step_testing h.count_lt h.ofNat_count hi hp, h.count, h.bound, ?_, ?_⟩
  · exact h.filled.goTo (by rw [hp]; rfl) rfl
  · exact shutting_update hothers (.indexing hi) hjoined

/-- Behind the loop, all slots have been joined. -/
theorem advance_testing_last (h : Tidy s) (hi : i = s.submitted.length)
    (hp : s.point t = .testing (.ofNat i)) :
    (machine T α).step s (.advance t) = some (s.goTo t .stopping) ∧ Tidy (s.goTo t .stopping) ∧
      s.joined = downFrom s.submitted.length := by
  have hclear (u : T) : (Function.update s.point t .stopping u).isClear = true := by
    by_cases hut : u = t
    · rw [hut, Function.update_self]
      rfl
    · rw [Function.update_of_ne hut]
      exact hothers u hut
  have hall : s.joined = downFrom s.submitted.length :=
    hjoined.trans (List.take_of_length_le (by rw [length_downFrom, hi]))
  rw [hi] at hp
  refine ⟨step_testing_last h.count_lt h.ofNat_count hp, ⟨h.count, h.bound, ?_, ?_⟩, hall⟩
  · exact h.filled.goTo (by rw [hp]; rfl) rfl
  · refine .submitting s.submitted.length le_rfl hall
      (fun u ↦ Point.inLoop_of_isClear (hclear u)) fun u j a hu ↦ ?_
    exact absurd hu (ne_assigning_of_isClear (hclear u) j a)

theorem advance_indexing (h : Tidy s) (hi : i < s.submitted.length)
    (hp : s.point t = .indexing (.ofNat i)) : ∃ s', step s (.advance t) = some s' ∧ Tidy s' := by
  refine ⟨_, step_indexing h.ofNat_count hi hp, h.count, h.bound, ?_, ?_⟩
  · exact h.filled.goTo (by rw [hp]; rfl) rfl
  · exact shutting_update hothers (.joining hi) hjoined

omit [DecidableEq T] in
/-- The slot of the round has a thread that has not been joined. -/
theorem exists_joinable (h : Tidy s) (hi : i < s.submitted.length)
    (hp : s.point t = .joining (.ofNat i) (.ofNat (s.submitted.length - 1 - i))) :
    ∃ a returned, s.dedicatedThreads[(UInt64.ofNat (s.submitted.length - 1 - i)).toNat]? =
      some (some ⟨a, returned, true⟩) := by
  have hlt : s.submitted.length - 1 - i < s.submitted.length := by omega
  rw [toNat_index h.count_lt hi]
  -- nobody is between the two steps of a submission, and the rounds before were for higher slots
  refine ⟨s.submitted[s.submitted.length - 1 - i], ?_⟩
  rcases h.filled.filled _ _ (List.getElem?_eq_getElem hlt) with ⟨u, j, hu, -⟩ |
    ⟨returned, hslot, -⟩
  · by_cases hut : u = t
    · rw [hut, hp] at hu
      exact absurd hu nofun
    · exact absurd hu (ne_assigning_of_isClear (hothers u hut) j _)
  · refine ⟨returned, ?_⟩
    rw [hslot, decide_eq_true]
    rw [hjoined, mem_take_downFrom]
    omega

/-- It is joined once its task has returned. -/
theorem advance_joining (h : Tidy s) (hi : i < s.submitted.length) {a : α}
    (hp : s.point t = .joining (.ofNat i) (.ofNat (s.submitted.length - 1 - i)))
    (hslot : s.dedicatedThreads[(UInt64.ofNat (s.submitted.length - 1 - i)).toNat]? =
      some (some ⟨a, true, true⟩)) :
    Tidy (s.afterJoin t (.ofNat i) (.ofNat (s.submitted.length - 1 - i))
      (s.dedicatedThreads.set (UInt64.ofNat (s.submitted.length - 1 - i)).toNat
        (some ⟨a, true, false⟩))) := by
  have hindex := toNat_index h.count_lt hi
  rw [hindex] at hslot
  refine ⟨h.count, List.length_set.trans_lt h.bound, ?_, ?_⟩
  · rw [State.afterJoin, hindex]
    exact h.filled.join (by rw [hp]; rfl) rfl hslot
  · have hnext : UInt64.ofNat i + 1 = .ofNat (i + 1) := (UInt64.ofNat_add i 1).symm
    rw [State.afterJoin, hnext, hindex, hjoined]
    exact shutting_update hothers (.testing hi) (take_succ_downFrom hi).symm

end Shutting

/-- **The step lemma** for a thread that goes on. Its access does not go wrong. -/
theorem advance (h : Tidy s) (ht : s.point t ≠ .idle) :
    ∃ s', step s (.advance t) = some s' ∧ Tidy s' := by
  by_cases hin : (s.point t).inLoop = true
  · obtain ⟨i, hothers, hround, hjoined⟩ := h.shutting hin
    generalize hp : s.point t = p at hround
    cases hround with
    | indexing hi => exact h.advance_indexing hothers hjoined hi hp
    | joining hi =>
      obtain ⟨a, returned, hslot⟩ := h.exists_joinable hothers hjoined hi hp
      cases returned with
      | false => exact ⟨s, step_joining_waits hp hslot, h⟩
      | true => exact ⟨_, step_joining hp hslot, h.advance_joining hothers hjoined hi hp hslot⟩
    | testing hi =>
      rcases hi.lt_or_eq with hi | hi
      · exact h.advance_testing hothers hjoined hi hp
      · obtain ⟨hstep, htidy, -⟩ := h.advance_testing_last hothers hjoined hi hp
        exact ⟨_, hstep, htidy⟩
  · cases hp : s.point t with
    | idle => exact absurd hp ht
    | assigning j a => exact h.advance_assigning hp
    | stopping => exact h.advance_stopping hp
    | joiningAll => exact h.advance_joiningAll hp
    | _ => exact absurd (by rw [hp]; rfl) hin

theorem safe (h : Tidy s) : Safe s := by
  intro t ht
  obtain ⟨s', hstep, -⟩ := h.advance ht
  rw [hstep]
  rfl

/-- **The step lemma.** -/
theorem step {a : Action T α} (h : Tidy s) (ha : Orderly s a)
    (hstep : ThreadPool.step s a = some s') : Tidy s' := by
  cases a with
  | submitDedicatedTask t task =>
    cases hp : s.point t with
    | idle =>
      simp only [ThreadPool.step, hp, Option.some_inj] at hstep
      exact hstep ▸ h.submit hp ha.1 ha.2 task
    | _ => simp only [ThreadPool.step, hp, reduceCtorEq] at hstep
  | shutdown t =>
    cases hp : s.point t with
    | idle =>
      simp only [ThreadPool.step, hp, Option.some_inj] at hstep
      exact hstep ▸ h.shutdown ha.1 ha.2 t
    | _ => simp only [ThreadPool.step, hp, reduceCtorEq] at hstep
  | advance t =>
    have ht : s.point t ≠ .idle := by
      intro hidle
      simp only [ThreadPool.step, hidle, reduceCtorEq] at hstep
    obtain ⟨u, hadvance, hu⟩ := h.advance ht
    rw [hadvance, Option.some_inj] at hstep
    exact hstep ▸ hu
  | taskReturns slot =>
    obtain ⟨thread, hslot, rfl⟩ := exists_of_step_taskReturns hstep
    exact h.finish hslot
  | poolThreadEnds =>
    obtain ⟨-, ⟨⟩⟩ := Option.ite_none_right_eq_some.mp hstep
    exact ⟨h.count, h.bound, h.filled, h.phase⟩

/-- **The run lemma.** -/
theorem run {poolSize n : UInt64} {as : List (Action T α)}
    (hrun : (machine T α).run (initializePool T α poolSize n) as = some s)
    (horderly : (machine T α).Along Orderly (initializePool T α poolSize n) as) : Tidy s :=
  Machine.PreservesUnder.run (M := machine T α) (fun _ _ _ h ha hstep ↦ h.step ha hstep)
    (tidy_initializePool poolSize n) horderly hrun

end Tidy

/-! ## What goes wrong otherwise -/

/-- There is no thread to join in the slot. -/
def Unjoinable (threads : List (Option (Thread α))) (n : ℕ) : Prop :=
  ∀ thread, threads[n]? = some (some thread) → thread.joinable = false

/-- A slot that is drawn and empty, or joined. -/
theorem Tidy.unjoinable_of_assigning {s : State T α} {t : T} (h : Tidy s) {j : UInt64} {a : α}
    (ht : s.point t = .assigning j a) :
    j.toNat < s.submitted.length ∧ Unjoinable s.dedicatedThreads j.toNat := by
  obtain ⟨ha, hslot, -⟩ := h.filled.pending t j a ht
  refine ⟨(List.getElem?_eq_some_iff.mp ha).1, fun thread hthread ↦ ?_⟩
  rw [hslot] at hthread
  exact absurd hthread nofun

theorem Tidy.unjoinable_of_mem_joined {s : State T α} {b : ℕ} (h : Tidy s) (hb : b ∈ s.joined) :
    b < s.submitted.length ∧ Unjoinable s.dedicatedThreads b := by
  have hlt : b < s.submitted.length := by
    rcases h.phase with ⟨done, hdone, hjoined, -⟩ | ⟨u, i, -, -, hjoined⟩
    · rw [hjoined, mem_downFrom] at hb
      omega
    · rw [hjoined, mem_take_downFrom] at hb
      exact hb.1
  refine ⟨hlt, fun thread hthread ↦ ?_⟩
  rcases h.filled.filled b _ (List.getElem?_eq_getElem hlt) with ⟨u, j, hu, rfl⟩ |
    ⟨returned, hslot, -⟩
  · exact absurd hb (h.filled.pending u j _ hu).2.2
  · rw [hslot, Option.some_inj, Option.some_inj] at hthread
    rw [← hthread]
    exact decide_eq_false fun hnot ↦ hnot hb

section Wrong

variable [DecidableEq T] {s s' : State T α} {t : T} {b c i : ℕ}

/-- The calls under way can go on, and tasks return, until an access goes wrong. -/
def MayGoWrong (s : State T α) : Prop :=
  ∃ bs s', (∀ b ∈ bs, b.isCall = false) ∧ (machine T α).run s bs = some s' ∧ ¬Safe s'

theorem MayGoWrong.of_not_safe (h : ¬Safe s) : MayGoWrong s :=
  ⟨[], s, fun _ hb ↦ absurd hb List.not_mem_nil, rfl, h⟩

theorem MayGoWrong.of_step {a : Action T α} (ha : a.isCall = false)
    (hstep : (machine T α).step s a = some s') (h : MayGoWrong s') : MayGoWrong s := by
  obtain ⟨bs, u, hbs, hrun, hsafe⟩ := h
  exact ⟨a :: bs, u, List.forall_mem_cons.mpr ⟨ha, hbs⟩,
    (Machine.run_cons_of_step hstep bs).trans hrun, hsafe⟩

theorem not_safe (ht : s.point t ≠ .idle) (hstep : step s (.advance t) = none) : ¬Safe s := by
  intro hsafe
  have := hsafe t ht
  rw [hstep] at this
  exact absurd this nofun

/-- What a `join` leaves: its slot, and those that were unjoinable before, are unjoinable. -/
theorem unjoinable_set {threads : List (Option (Thread α))} {n : ℕ} {thread : Thread α}
    (hslot : threads[n]? = some (some thread)) (hjoinable : thread.joinable = true) (a : α) :
    ¬Unjoinable threads n ∧ Unjoinable (threads.set n (some ⟨a, true, false⟩)) n ∧
      ∀ b, Unjoinable threads b → Unjoinable (threads.set n (some ⟨a, true, false⟩)) b := by
  have hlt := (List.getElem?_eq_some_iff.mp hslot).1
  have hself : Unjoinable (threads.set n (some ⟨a, true, false⟩)) n := by
    intro other hother
    rw [List.getElem?_set_self hlt] at hother
    cases hother
    rfl
  refine ⟨fun hun ↦ ?_, hself, fun b hb ↦ ?_⟩
  · rw [hun thread hslot] at hjoinable
    exact absurd hjoinable nofun
  · by_cases hbn : n = b
    · exact hbn ▸ hself
    · intro other hother
      rw [List.getElem?_set_ne hbn] at hother
      exact hb other hother

/-- The access of a round goes wrong, or it can be waited for and the next round begins. -/
theorem mayGoWrong_of_joining {i index : UInt64} (hp : s.point t = .joining i index)
    (h : ∀ threads, ¬Unjoinable s.dedicatedThreads index.toNat → Unjoinable threads index.toNat →
      (∀ b, Unjoinable s.dedicatedThreads b → Unjoinable threads b) →
        MayGoWrong (s.afterJoin t i index threads)) : MayGoWrong s := by
  have hne : s.point t ≠ .idle := by
    rw [hp]
    exact nofun
  cases hslot : s.dedicatedThreads[index.toNat]? with
  | none =>
    exact .of_not_safe (not_safe hne (by simp only [step, hp, join, hslot, Option.map_none]))
  | some slot =>
    cases slot with
    | none =>
      exact .of_not_safe (not_safe hne (by simp only [step, hp, join, hslot, Option.map_none]))
    | some thread =>
      obtain ⟨a, returned, joinable⟩ := thread
      cases joinable with
      | false =>
        refine .of_not_safe (not_safe hne ?_)
        simp only [step, hp, join, hslot, Bool.false_eq_true, if_false, Option.map_none]
      | true =>
        obtain ⟨hnot, hself, hmono⟩ := unjoinable_set hslot rfl a
        have hnext := h _ hnot hself hmono
        cases returned with
        | true => exact .of_step rfl (step_joining hp hslot) hnext
        | false =>
          -- the task returns first
          have hlt := (List.getElem?_eq_some_iff.mp hslot).1
          refine .of_step rfl (step_taskReturns hslot) (.of_step (a := .advance t) rfl
            (step_joining (a := a) hp (List.getElem?_set_self hlt)) ?_)
          rw [State.afterJoin, List.set_set]
          exact hnext

/-- A loop that comes to a slot with no thread to join. -/
theorem mayGoWrong_of_unjoinable (hc : c < 2 ^ 64) (n : ℕ) : ∀ {s : State T α} {i : ℕ}, c ≤ i + n →
    s.currentThreadCount = .ofNat c → Round c i (s.point t) → b + i < c →
    Unjoinable s.dedicatedThreads b → MayGoWrong s := by
  induction n with
  | zero => exact fun hn _ _ hb _ ↦ absurd hn (by omega)
  | succ n ih =>
    intro s i hn hcount hround hb hun
    have hi : i < c := by omega
    -- backwards through the round: the join, the second loading of the counter, the first
    have hjoining {s : State T α} (hcount : s.currentThreadCount = .ofNat c)
        (hp : s.point t = .joining (.ofNat i) (.ofNat (c - 1 - i)))
        (hun : Unjoinable s.dedicatedThreads b) : MayGoWrong s := by
      refine mayGoWrong_of_joining hp fun threads hnot _ hmono ↦ ?_
      have hne : b ≠ c - 1 - i := by
        intro heq
        rw [toNat_index hc hi, ← heq] at hnot
        exact hnot hun
      exact ih (s := s.afterJoin t _ _ threads) (i := i + 1) (by omega) hcount
        (round_afterJoin (by omega)) (by omega) (hmono b hun)
    have hindexing {s : State T α} (hcount : s.currentThreadCount = .ofNat c)
        (hp : s.point t = .indexing (.ofNat i)) (hun : Unjoinable s.dedicatedThreads b) :
        MayGoWrong s :=
      .of_step rfl (step_indexing hcount (by omega) hp)
        (hjoining (s := s.goTo t _) hcount (point_goTo _ _ _) hun)
    generalize hp : s.point t = p at hround
    cases hround with
    | joining _ => exact hjoining hcount hp hun
    | indexing _ => exact hindexing hcount hp hun
    | testing _ =>
      exact .of_step rfl (step_testing hc hcount (by omega) hp)
        (hindexing (s := s.goTo t _) hcount (point_goTo _ _ _) hun)

/-- Two loops side by side, neither of which has joined a thread. -/
theorem mayGoWrong_of_two_loops {u : T} (hc : c < 2 ^ 64) (hpos : 0 < c) (hut : u ≠ t)
    (hcount : s.currentThreadCount = .ofNat c) (ht : s.point t = .testing 0)
    (hu : Round c 0 (s.point u)) : MayGoWrong s := by
  -- one of them goes first, and leaves the last slot to the other
  let loaded := (s.goTo t (.indexing 0)).goTo t (.joining 0 (.ofNat (c - 1 - 0)))
  have hloaded : loaded.point u = s.point u :=
    (Function.update_of_ne hut _ _).trans (Function.update_of_ne hut _ _)
  refine .of_step rfl (step_testing hc hcount hpos ht) (.of_step rfl
    (step_indexing (s := s.goTo t (.indexing 0)) hcount hpos (point_goTo _ _ _)) ?_)
  refine mayGoWrong_of_joining (s := loaded) (t := t) (point_goTo _ _ _)
    fun threads _ hun _ ↦ ?_
  have hround : Round c 0 ((loaded.afterJoin t 0 (.ofNat (c - 1 - 0)) threads).point u) := by
    have hpoint : (loaded.afterJoin t 0 (.ofNat (c - 1 - 0)) threads).point u = s.point u :=
      (Function.update_of_ne hut _ _).trans hloaded
    rwa [hpoint]
  rw [toNat_index hc hpos] at hun
  exact mayGoWrong_of_unjoinable (s := loaded.afterJoin t 0 (.ofNat (c - 1 - 0)) threads)
    (b := c - 1 - 0) hc c (Nat.le_add_left _ _) hcount hround (by omega) hun

namespace Tidy

/-- A `Shutdown` that is not the only one to join threads, or not alone. -/
theorem mayGoWrong_of_shutdown (h : Tidy s) (hsome : s.submitted ≠ []) (ht : s.point t = .idle)
    (hnot : ¬Orderly s (.shutdown t)) : MayGoWrong (s.goTo t (.testing 0)) := by
  have hround : Round s.submitted.length 0 ((s.goTo t (.testing 0)).point t) := by
    rw [point_goTo]
    exact .testing (Nat.zero_le _)
  have hgoes (b : ℕ) (hb : b < s.submitted.length ∧ Unjoinable s.dedicatedThreads b) :=
    mayGoWrong_of_unjoinable (s := s.goTo t (.testing 0)) (b := b) h.count_lt s.submitted.length
      (Nat.le_add_left _ _) h.ofNat_count hround hb.1 hb.2
  by_cases hjoined : s.joined = []
  · rw [Orderly, and_iff_right hjoined, not_forall] at hnot
    obtain ⟨u, hu⟩ := hnot
    have hut : u ≠ t := by
      rintro rfl
      exact hu (by rw [ht]; rfl)
    by_cases hin : (s.point u).inLoop = true
    · -- nothing has been joined, so the other loop is in its first round
      obtain ⟨i, -, hloop, htake⟩ := h.shutting hin
      have hpos := List.length_pos_iff_ne_nil.mpr hsome
      have hzero : i = 0 := by
        rw [hjoined] at htake
        have hlength := congrArg List.length htake
        rw [List.length_take, length_downFrom, List.length_nil] at hlength
        omega
      refine mayGoWrong_of_two_loops h.count_lt hpos hut h.ofNat_count (point_goTo _ _ _) ?_
      have hpoint : (s.goTo t (.testing 0)).point u = s.point u := Function.update_of_ne hut _ _
      rwa [hpoint, ← hzero]
    · -- the loop comes to the slot that is drawn and empty
      cases hp : s.point u with
      | assigning j a => exact hgoes _ (h.unjoinable_of_assigning hp)
      | idle | stopping | joiningAll => exact absurd (by rw [hp]; rfl) hu
      | testing _ | indexing _ | joining _ _ => exact absurd (by rw [hp]; rfl) hin
  · -- or to one that was joined before
    obtain ⟨b, hb⟩ := List.exists_mem_of_ne_nil _ hjoined
    exact hgoes b (h.unjoinable_of_mem_joined hb)

/-- A submission that finds no slot, or overlaps with the loop of a `Shutdown`. -/
theorem mayGoWrong_of_submit (h : Tidy s) (ht : s.point t = .idle) (a : α)
    (hnot : ¬Orderly s (.submitDedicatedTask t a)) : MayGoWrong (s.afterDraw t a) := by
  have hcount := h.count
  have hbound := h.bound
  have hself : (s.afterDraw t a).point t = .assigning s.currentThreadCount a :=
    Function.update_self _ _ _
  by_cases hroom : s.currentThreadCount.toNat < s.dedicatedThreads.length
  · rw [Orderly, and_iff_right hroom, not_forall] at hnot
    obtain ⟨u, hin⟩ := hnot
    rw [Bool.not_eq_false] at hin
    obtain ⟨i, -, hround, hjoined⟩ := h.shutting hin
    have hut : u ≠ t := by
      rintro rfl
      rw [ht] at hin
      exact absurd hin nofun
    have hpoint : (s.afterDraw t a).point u = s.point u := Function.update_of_ne hut _ _
    have hnext : (s.afterDraw t a).currentThreadCount = .ofNat (s.submitted.length + 1) := by
      rw [State.afterDraw, h.ofNat_count]
      exact (UInt64.ofNat_add _ 1).symm
    have hlt : s.submitted.length + 1 < 2 ^ 64 := by omega
    -- what the loop comes to next: the slot that it has joined last, or the one that is drawn now
    have hlast (hi : i ≤ s.submitted.length) :
        Unjoinable s.dedicatedThreads (s.submitted.length - i) := by
      by_cases hzero : i = 0
      · rw [hzero, Nat.sub_zero]
        intro thread hthread
        rw [h.filled.free _ le_rfl (hcount ▸ hroom)] at hthread
        exact absurd hthread nofun
      · refine (h.unjoinable_of_mem_joined ?_).2
        rw [hjoined, mem_take_downFrom]
        omega
    generalize hp : s.point u = p at hround
    rw [hp] at hpoint
    cases hround with
    | testing hi =>
      have hround : Round (s.submitted.length + 1) i ((s.afterDraw t a).point u) := by
        rw [hpoint]
        exact .testing (by omega)
      exact mayGoWrong_of_unjoinable hlt _ (Nat.le_add_left _ _) hnext hround (by omega) (hlast hi)
    | indexing hi =>
      have hround : Round (s.submitted.length + 1) i ((s.afterDraw t a).point u) := by
        rw [hpoint]
        exact .indexing (by omega)
      exact mayGoWrong_of_unjoinable hlt _ (Nat.le_add_left _ _) hnext hround (by omega)
        (hlast hi.le)
    | joining hi =>
      -- the index of this round has been loaded before the submission
      refine mayGoWrong_of_joining hpoint fun threads _ hun _ ↦ ?_
      rw [toNat_index h.count_lt hi] at hun
      exact mayGoWrong_of_unjoinable (s := (s.afterDraw t a).afterJoin u _ _ threads) (i := i + 1)
        hlt _ (Nat.le_add_left _ _) hnext (round_afterJoin (by omega)) (by omega) hun
  · -- the slot is past the end of the vector
    refine .of_not_safe (not_safe (t := t) ?_ ?_)
    · rw [hself]
      exact nofun
    · have hnone : (s.afterDraw t a).dedicatedThreads[s.currentThreadCount.toNat]? = none :=
        List.getElem?_eq_none (Nat.not_lt.mp hroom)
      simp only [ThreadPool.step, hself, reset, hnone, Option.map_none]

/-- A call that is not orderly. -/
theorem mayGoWrong (h : Tidy s) (hsome : s.submitted ≠ []) {a : Action T α}
    (hnot : ¬Orderly s a) (hstep : ThreadPool.step s a = some s') : MayGoWrong s' := by
  cases a with
  | submitDedicatedTask t task =>
    cases hp : s.point t with
    | idle =>
      simp only [ThreadPool.step, hp, Option.some_inj] at hstep
      exact hstep ▸ h.mayGoWrong_of_submit hp task hnot
    | _ => simp only [ThreadPool.step, hp, reduceCtorEq] at hstep
  | shutdown t =>
    cases hp : s.point t with
    | idle =>
      simp only [ThreadPool.step, hp, Option.some_inj] at hstep
      exact hstep ▸ h.mayGoWrong_of_shutdown hsome hp hnot
    | _ => simp only [ThreadPool.step, hp, reduceCtorEq] at hstep
  | advance t => exact absurd trivial hnot
  | taskReturns slot => exact absurd trivial hnot
  | poolThreadEnds => exact absurd trivial hnot

end Tidy

end Wrong

/-- **Orderly runs are safe, and no others.** Tasks return when they like. As long as every
submission finds a slot, and none overlaps with the loop of a `Shutdown`, of which there is one, no
access goes wrong. From there, once there is a thread, a call that breaks the order can lead to an
access that does, with no further call. Threads are taken to start whenever they are told to. -/
theorem safe_while_orderly [DecidableEq T] {poolSize n : UInt64} {as : List (Action T α)}
    {s : State T α} (hrun : (machine T α).run (initializePool T α poolSize n) as = some s)
    (horderly : (machine T α).Along Orderly (initializePool T α poolSize n) as) :
    Safe s ∧ (s.submitted ≠ [] →
      ∀ a s', ¬Orderly s a → step s a = some s' → MayGoWrong s') := by
  have h := Tidy.run hrun horderly
  exact ⟨h.safe, fun hsome _ _ hnot hstep ↦ h.mayGoWrong hsome hnot hstep⟩

/-- Two threads submit at a time, and one of them shuts the pool down. It waits for the task in the
last slot, and for a thread of the library pool. -/
def submittedTwice : List (Action Bool ℕ) :=
  [.submitDedicatedTask false 7, .submitDedicatedTask true 8, .advance true, .advance false,
    .shutdown true, .advance true, .advance true, .advance true, .taskReturns 0, .taskReturns 1,
    .advance true, .advance true, .advance true, .advance true, .advance true, .advance true,
    .advance true, .poolThreadEnds, .advance true]

theorem safe_while_orderly_submittedTwice :
    ∃ s, (machine Bool ℕ).run (initializePool Bool ℕ 1 2) submittedTwice = some s ∧ Safe s :=
  ⟨_, rfl, (@safe_while_orderly Bool ℕ _ 1 2 submittedTwice _ rfl (by decide)).1⟩

/-! ## `Shutdown` alone -/

/-- No task is running in any slot. -/
def AllReturned (s : State T α) : Prop :=
  ∀ slot ∈ s.dedicatedThreads, ∀ thread ∈ slot, thread.returned = true

instance (s : State T α) : Decidable (AllReturned s) :=
  inferInstanceAs (Decidable (∀ slot ∈ s.dedicatedThreads, ∀ thread ∈ slot, thread.returned = true))

/-- What `Shutdown` leaves when it returns. -/
structure ShutDown (tasks : List α) (s : State T α) : Prop where
  joined : s.joined = (List.range tasks.length).reverse
  threads : s.dedicatedThreads.take tasks.length = tasks.map fun a ↦ some ⟨a, true, false⟩
  poolThreads : s.poolThreads = 0

/-- A call of `Shutdown` by `t`, or after it, with no other thread in a call. -/
structure Closing (tasks : List α) (t : T) (s : State T α) : Prop where
  tidy : Tidy s
  submitted : s.submitted = tasks
  others : ∀ u, u ≠ t → s.point u = .idle
  own : (s.point t).isAssigning = false
  behind : (s.point t).inLoop = false → s.joined = downFrom tasks.length
  stopped : s.point t = .joiningAll → s.stopped = true
  ended : s.point t = .idle → s.poolThreads = 0

/-- The steps of `Shutdown` that are left before `join_all`. -/
def Point.left (count : ℕ) : Point α → ℕ
  | testing i => 3 * (count - i.toNat) + 2
  | indexing i => 3 * (count - i.toNat) + 1
  | joining i _ => 3 * (count - i.toNat)
  | stopping => 1
  | joiningAll | idle | assigning .. => 0

theorem Point.left_le (count : ℕ) (p : Point α) : p.left count ≤ 3 * count + 2 := by
  cases p with
  | testing i | indexing i | joining i _ => rw [left]; omega
  | _ => rw [left]; omega

/-- The call begins. -/
theorem closing [DecidableEq T] {s : State T α} (h : Tidy s) (hidle : ∀ u, s.point u = .idle)
    (hjoined : s.joined = []) (t : T) : Closing s.submitted t (s.goTo t (.testing 0)) := by
  have hclear (u : T) : (s.point u).isClear = true := by
    rw [hidle u]
    rfl
  have hself := point_goTo s t (.testing 0)
  refine ⟨h.shutdown hjoined hclear t, rfl, fun u hu ↦ ?_, ?_, ?_, ?_, ?_⟩
  · exact (Function.update_of_ne hu _ _).trans (hidle u)
  · rw [hself]
    rfl
  · rw [hself]
    exact nofun
  · rw [hself]
    exact nofun
  · rw [hself]
    exact nofun

namespace Closing

variable {tasks : List α} {s s' : State T α} {t : T}

/-- Behind the loop the threads have been joined, and their tasks have returned. -/
theorem shutDown (h : Closing tasks t s) (ht : s.point t = .idle) : ShutDown tasks s := by
  have hjoined := h.behind (by rw [ht]; rfl)
  refine ⟨hjoined, ?_, h.ended ht⟩
  refine List.ext_getElem? fun i ↦ ?_
  rw [List.getElem?_map]
  by_cases hi : i < tasks.length
  · have hget := List.getElem?_eq_getElem hi
    have hmem : i ∈ s.joined := by rwa [hjoined, mem_downFrom]
    have hget' : s.submitted[i]? = some tasks[i] := by rw [h.submitted, hget]
    rcases h.tidy.filled.filled i _ hget' with ⟨u, j, hu, -⟩ |
      ⟨returned, hslot, hreturned⟩
    · have hidle : s.point u = .idle := by
        by_cases hut : u = t
        · rw [hut, ht]
        · exact h.others u hut
      rw [hidle] at hu
      exact absurd hu nofun
    · rw [List.getElem?_take_of_lt hi, hslot, hget, hreturned hmem,
        decide_eq_false fun hnot ↦ hnot hmem]
      rfl
  · rw [List.getElem?_take_eq_none (Nat.not_lt.mp hi), List.getElem?_eq_none (Nat.not_lt.mp hi)]
    rfl

/-- A step of no caller. -/
theorem ofReturn (h : Closing tasks t s) {b : Action T α} (hb : b.isReturn = true)
    [DecidableEq T] (hstep : step s b = some s') : Closing tasks t s' := by
  have htidy : Orderly s b → Tidy s' := fun ho ↦ h.tidy.step ho hstep
  cases b with
  | taskReturns slot =>
    obtain ⟨thread, -, rfl⟩ := exists_of_step_taskReturns hstep
    exact ⟨htidy trivial, h.submitted, h.others, h.own, h.behind, h.stopped, h.ended⟩
  | poolThreadEnds =>
    obtain ⟨-, ⟨⟩⟩ := Option.ite_none_right_eq_some.mp hstep
    refine ⟨htidy trivial, h.submitted, h.others, h.own, h.behind, h.stopped, fun ht ↦ ?_⟩
    rw [h.ended ht]
  | submitDedicatedTask | shutdown | advance => cases hb

variable [DecidableEq T]

/-- A step of `t` to another point of `Shutdown`. -/
theorem goOn (h : Closing tasks t s) {p : Point α} (htidy : Tidy s')
    (hpoint : s'.point = Function.update s.point t p) (hsubmitted : s'.submitted = s.submitted)
    (hown : p.isAssigning = false) (hbehind : p.inLoop = false → s'.joined = downFrom tasks.length)
    (hstopped : p = .joiningAll → s'.stopped = true) (hended : p = .idle → s'.poolThreads = 0) :
    Closing tasks t s' := by
  have hself : s'.point t = p := by rw [hpoint, Function.update_self]
  refine ⟨htidy, hsubmitted.trans h.submitted, fun u hu ↦ ?_, ?_, ?_, ?_, ?_⟩
  · rw [hpoint, Function.update_of_ne hu]
    exact h.others u hu
  · rwa [hself]
  · rwa [hself]
  · rwa [hself]
  · rwa [hself]

/-- **The step lemma.** Before `join_all`, a step of `t` leads on if no task is running. -/
theorem advance (h : Closing tasks t s) (ht : s.point t ≠ .idle) :
    ∃ s', step s (.advance t) = some s' ∧ Closing tasks t s' ∧
      (AllReturned s → s.point t ≠ .joiningAll → AllReturned s' ∧ s'.point t ≠ .idle ∧
        s'.poolThreads = s.poolThreads ∧
        (s'.point t).left tasks.length + 1 = (s.point t).left tasks.length) := by
  have hlen : s.submitted.length = tasks.length := by rw [h.submitted]
  have htoNat {i : ℕ} (hi : i ≤ s.submitted.length) : (UInt64.ofNat i).toNat = i :=
    UInt64.toNat_ofNat_of_lt' (lt_of_le_of_lt hi h.tidy.count_lt)
  by_cases hin : (s.point t).inLoop = true
  · obtain ⟨i, hothers, hround, hjoined⟩ := h.tidy.shutting hin
    generalize hp : s.point t = p at hround
    cases hround with
    | testing hi =>
      rcases hi.lt_or_eq with hi | hi
      · obtain ⟨u, hstep, htidy⟩ := h.tidy.advance_testing hothers hjoined hi hp
        have hindexing := step_testing h.tidy.count_lt h.tidy.ofNat_count hi hp
        obtain rfl := Option.some_inj.mp (hindexing.symm.trans hstep)
        refine ⟨_, hstep, h.goOn htidy rfl rfl rfl nofun nofun nofun, fun hall _ ↦
          ⟨hall, ?_, rfl, ?_⟩⟩
        · rw [point_goTo]
          exact nofun
        · rw [point_goTo, Point.left, Point.left]
      · obtain ⟨hstep, htidy, hdone⟩ := h.tidy.advance_testing_last hothers hjoined hi hp
        refine ⟨_, hstep, h.goOn htidy rfl rfl rfl (fun _ ↦ hlen ▸ hdone) nofun nofun,
          fun hall _ ↦ ⟨hall, ?_, rfl, ?_⟩⟩
        · rw [point_goTo]
          exact nofun
        · rw [point_goTo, Point.left, Point.left, htoNat hi.le]
          omega
    | indexing hi =>
      obtain ⟨u, hstep, htidy⟩ := h.tidy.advance_indexing hothers hjoined hi hp
      have hjoining := step_indexing h.tidy.ofNat_count hi hp
      obtain rfl := Option.some_inj.mp (hjoining.symm.trans hstep)
      refine ⟨_, hstep, h.goOn htidy rfl rfl rfl nofun nofun nofun, fun hall _ ↦
        ⟨hall, ?_, rfl, ?_⟩⟩
      · rw [point_goTo]
        exact nofun
      · rw [point_goTo, Point.left, Point.left]
    | joining hi =>
      obtain ⟨a, returned, hslot⟩ := h.tidy.exists_joinable hothers hjoined hi hp
      cases returned with
      | false =>
        -- `join` waits, which it does not if no task is running
        refine ⟨s, step_joining_waits hp hslot, h, fun hall ↦ ?_⟩
        cases hall _ (List.mem_of_getElem? hslot) _ rfl
      | true =>
        have htidy := h.tidy.advance_joining hothers hjoined hi hp hslot
        refine ⟨_, step_joining hp hslot, h.goOn (p := .testing (.ofNat i + 1)) htidy rfl rfl rfl
          nofun nofun nofun, fun hall _ ↦ ⟨fun slot hmem thread hthread ↦ ?_, ?_, rfl, ?_⟩⟩
        · rcases List.mem_or_eq_of_mem_set hmem with hmem | rfl
          · exact hall slot hmem thread hthread
          · rw [← Option.mem_some.mp hthread]
        · rw [point_afterJoin]
          exact nofun
        · rw [point_afterJoin, Point.left, Point.left, htoNat hi.le, htoNat hi]
          omega
  · cases hp : s.point t with
    | idle => exact absurd hp ht
    | assigning j a =>
      have hown := h.own
      rw [hp] at hown
      exact absurd hown nofun
    | testing _ | indexing _ | joining _ _ => exact absurd (by rw [hp]; rfl) hin
    | stopping =>
      obtain ⟨u, hstep, htidy⟩ := h.tidy.advance_stopping hp
      have hsame := hstep
      simp only [ThreadPool.step, hp, Option.some_inj] at hsame
      subst hsame
      refine ⟨_, hstep, h.goOn htidy rfl rfl rfl (fun _ ↦ h.behind (by rw [hp]; rfl))
        (fun _ ↦ rfl) nofun, fun hall _ ↦ ⟨hall, ?_, rfl, ?_⟩⟩
      · change Function.update s.point t .joiningAll t ≠ .idle
        rw [Function.update_self]
        exact nofun
      · change (Function.update s.point t .joiningAll t).left tasks.length + 1 = _
        rw [Function.update_self]
        rfl
    | joiningAll =>
      obtain ⟨u, hstep, htidy⟩ := h.tidy.advance_joiningAll hp
      refine ⟨u, hstep, ?_, fun _ hne ↦ absurd rfl hne⟩
      simp only [ThreadPool.step, hp] at hstep
      split_ifs at hstep with hzero
      · obtain rfl := Option.some_inj.mp hstep
        exact h.goOn htidy rfl rfl rfl (fun _ ↦ h.behind (by rw [hp]; rfl)) nofun fun _ ↦ hzero
      · exact Option.some_inj.mp hstep ▸ h

/-- **The run lemma.** -/
theorem run {bs : List (Action T α)} (h : Closing tasks t s)
    (hbs : ∀ b ∈ bs, b = .advance t ∨ b.isReturn = true)
    (hrun : (machine T α).run s bs = some s') : Closing tasks t s' := by
  refine Machine.PreservesUnder.run (M := machine T α)
    (C := fun _ b ↦ b = .advance t ∨ b.isReturn = true) (I := Closing tasks t)
    (fun u v b hu hb hstep ↦ ?_) h (Machine.along_of_forall_mem hbs) hrun
  rcases hb with rfl | hb
  · have ht : u.point t ≠ .idle := by
      intro hidle
      simp only [machine, ThreadPool.step, hidle, reduceCtorEq] at hstep
    obtain ⟨w, hadvance, hw, -⟩ := hu.advance ht
    obtain rfl := Option.some_inj.mp (hadvance.symm.trans hstep)
    exact hw
  · exact hu.ofReturn hb hstep

/-- The rest of the loop, and `stop`. -/
theorem run_left (n : ℕ) : ∀ {s : State T α}, Closing tasks t s → AllReturned s →
    s.point t ≠ .idle → (s.point t).left tasks.length = n →
    ∃ s', (machine T α).run s (List.replicate n (.advance t)) = some s' ∧ Closing tasks t s' ∧
      s'.point t = .joiningAll ∧ s'.poolThreads = s.poolThreads := by
  induction n with
  | zero =>
    intro s h hall hidle hleft
    refine ⟨s, rfl, h, ?_, rfl⟩
    by_contra hne
    obtain ⟨u, -, -, hmore⟩ := h.advance hidle
    obtain ⟨-, -, -, hleft'⟩ := hmore hall hne
    omega
  | succ n ih =>
    intro s h hall hidle hleft
    have hne : s.point t ≠ .joiningAll := by
      intro hp
      rw [hp] at hleft
      exact absurd hleft nofun
    obtain ⟨u, hstep, hu, hmore⟩ := h.advance hidle
    obtain ⟨hall', hidle', hpool, hleft'⟩ := hmore hall hne
    obtain ⟨s', hrun, hs', hp, hsame⟩ := ih hu hall' hidle' (by omega)
    have hstep : (machine T α).step s (.advance t) = some u := hstep
    refine ⟨s', ?_, hs', hp, hsame.trans hpool⟩
    rw [List.replicate_succ, Machine.run_cons_of_step hstep, hrun]

/-- `join_all`, while the threads of the library pool end. -/
theorem run_joiningAll (n : ℕ) : ∀ {s : State T α}, Closing tasks t s →
    s.point t = .joiningAll → s.poolThreads = n →
    ∃ s', (machine T α).run s (List.replicate n .poolThreadEnds ++ [.advance t]) = some s' ∧
      s'.point t = .idle ∧ Closing tasks t s' := by
  induction n with
  | zero =>
    intro s h hp hpool
    obtain ⟨u, hstep, hu, -⟩ := h.advance (by rw [hp]; exact nofun)
    have hsame := hstep
    simp only [ThreadPool.step, hp, hpool, if_true, Option.some_inj] at hsame
    have hstep : (machine T α).step s (.advance t) = some u := hstep
    refine ⟨u, Machine.run_cons_of_step hstep [], ?_, hu⟩
    rw [← hsame, point_goTo]
  | succ n ih =>
    intro s h hp hpool
    have hstep : (machine T α).step s .poolThreadEnds =
        some { s with poolThreads := s.poolThreads - 1 } :=
      if_pos ⟨h.stopped hp, by omega⟩
    have hpool' : s.poolThreads - 1 = n := by omega
    obtain ⟨s', hrun, hrest⟩ := ih (h.ofReturn (b := .poolThreadEnds) rfl hstep) hp hpool'
    refine ⟨s', ?_, hrest⟩
    rw [List.replicate_succ, List.cons_append, Machine.run_cons_of_step hstep, hrun]

end Closing

/-- **`Shutdown` joins every thread once, the last one first.** With no submission between its two
steps, no `Shutdown` before and no other call meanwhile, it returns only when the task of every
dedicated thread has returned, all of them have been joined, from the slot of the last submission to
that of the first, and the threads of the library pool have ended. Wherever its own steps and these
returns have led, once no task is running it returns after at most so many more steps of its own and
the ends of the library pool's threads. -/
theorem shutdown_joins_all [DecidableEq T] {poolSize n : UInt64} {as : List (Action T α)}
    {s s' : State T α} (hrun : (machine T α).run (initializePool T α poolSize n) as = some s)
    (horderly : (machine T α).Along Orderly (initializePool T α poolSize n) as)
    (hidle : ∀ t, s.point t = .idle) (hjoined : s.joined = []) {t : T} {bs : List (Action T α)}
    (hbs : ∀ b ∈ bs, b = .advance t ∨ b.isReturn = true)
    (hrun' : (machine T α).run s (.shutdown t :: bs) = some s') :
    (s'.point t = .idle → ShutDown s.submitted s') ∧
    (s'.point t ≠ .idle → AllReturned s' →
      ∃ m s'', m ≤ 3 * s.submitted.length + 2 ∧
        (machine T α).run s' (List.replicate m (.advance t) ++
          (List.replicate s'.poolThreads .poolThreadEnds ++ [.advance t])) = some s'' ∧
        s''.point t = .idle ∧ ShutDown s.submitted s'') := by
  have hcall : (machine T α).step s (.shutdown t) = some (s.goTo t (.testing 0)) := by
    simp only [machine, step, hidle t]
  rw [Machine.run_cons_of_step hcall] at hrun'
  have h := (closing (Tidy.run hrun horderly) hidle hjoined t).run hbs hrun'
  refine ⟨h.shutDown, fun ht hall ↦ ?_⟩
  obtain ⟨u, hloop, hu, hp, hpool⟩ := h.run_left _ hall ht rfl
  obtain ⟨s'', hlast, hidle', hs''⟩ := hu.run_joiningAll _ hp hpool
  refine ⟨(s'.point t).left s.submitted.length, s'', Point.left_le _ _, ?_, hidle',
    hs''.shutDown hidle'⟩
  rw [Machine.run_append, hloop, Option.bind_some, hlast]

/-- Both have submitted when one of them shuts the pool down, and it has waited for the last. -/
theorem shutdown_joins_all_submittedTwice :
    ∃ s s' s'' : State Bool ℕ,
      (machine Bool ℕ).run (initializePool Bool ℕ 1 2) (submittedTwice.take 4) = some s ∧
      (machine Bool ℕ).run s [.shutdown true, .advance true, .advance true, .advance true,
        .taskReturns 0, .taskReturns 1] = some s' ∧ s'.point true = .joining 0 1 ∧
      s''.point true = .idle ∧ ShutDown s.submitted s'' := by
  obtain ⟨m, s'', -, -, hidle, hshut⟩ := (@shutdown_joins_all Bool ℕ _ 1 2 (submittedTwice.take 4)
    _ _ rfl (by decide) (by decide) rfl true [.advance true, .advance true, .advance true,
      .taskReturns 0, .taskReturns 1] (by simp [Action.isReturn]) rfl).2
    (ne_of_eq_of_ne (b := .joining 0 1) rfl nofun) (by decide)
  exact ⟨_, _, s'', rfl, rfl, rfl, hidle, hshut⟩

end ThreadPool

end FulgurLogging
