import FulgurLogging.BufferPool.Latched
import FulgurLogging.Lib.Window

/-!
# One thread that puts

What makes the waiting loop of `LogBufferPool::Put` unsafe is another `Put` between the loop and
the latch. A `GetAllBuffers` there does no harm, since it only makes room. So a pool that one thread
puts to, whichever threads collect from it, is safe without any other lock, and loses nothing.

Until it is destroyed: the destructor releases the slots below `size_`, which leaks every buffer
that nobody has collected, and has no others to delete.
-/

namespace FulgurLogging

open Transition Mutex

namespace LogBufferPool

variable {T β : Type*}

/-- In `Put`, with the latch or without. -/
def Point.isPutting : Point β → Bool
  | waiting _ | latching _ | adding _ | storing .. => true
  | idle | collecting | looping _ | moving _ | exchanging | unlatching => false

theorem Point.isPutting_of_isLatching {p : Point β} (h : p.isLatching = true) :
    p.isPutting = true := by
  cases p with
  | latching b => rfl
  | _ => cases h

/-- Nobody but `w` is in `Put`, and what `w` has read of `size_` still holds. -/
structure OnePutter (w : T) (pool : LogBufferPool β) (point : T → Point β) : Prop where
  only : ∀ t, (point t).isPutting = true → t = w
  room : (point w).isLatching = true → pool.size < pool.capacity

/-- The calls of `Put` are those of `w`. -/
def PutsBy (w : T) : Action T β → Prop
  | .put t _ => t = w
  | _ => True

instance [DecidableEq T] (w : T) : DecidablePred fun a : Action T β ↦ PutsBy w a
  | .put t _ => inferInstanceAs (Decidable (t = w))
  | .getAllBuffers _ | .advance _ => isTrue trivial

namespace OnePutter

variable {w t : T} {s s' : State T β} {pool pool' : LogBufferPool β} {point : T → Point β}
  {p : Point β}

theorem fresh (h : OnePutter w s.pool s.point) (a : Action T β) : Fresh s a := by
  cases a with
  | put t b => trivial
  | getAllBuffers t => trivial
  | advance t =>
    intro hlatching _
    have hw : t = w := h.only t (Point.isPutting_of_isLatching hlatching)
    exact h.room (hw ▸ hlatching)

theorem init : OnePutter w (LogBufferPool.init T β).pool (LogBufferPool.init T β).point :=
  ⟨fun _ h ↦ absurd h Bool.false_ne_true, fun h ↦ absurd h Bool.false_ne_true⟩

variable [DecidableEq T]

/-- One thread goes on. As long as it is not `w`, there has to be as much room as before. -/
theorem update (h : OnePutter w pool point) (hput : p.isPutting = true → t = w)
    (hlatching : p.isLatching = true → pool'.size < pool'.capacity)
    (hroom : t ≠ w → pool.size < pool.capacity → pool'.size < pool'.capacity) :
    OnePutter w pool' (Function.update point t p) := by
  refine ⟨fun u hu ↦ ?_, fun hw ↦ ?_⟩
  · by_cases hut : u = t
    · rw [hut, Function.update_self] at hu
      exact hut.trans (hput hu)
    · rw [Function.update_of_ne hut] at hu
      exact h.only u hu
  · by_cases htw : t = w
    · rw [htw, Function.update_self] at hw
      exact hlatching hw
    · rw [Function.update_of_ne (Ne.symm htw)] at hw
      exact hroom htw (h.room hw)

/-- It goes on to a point that is not in `Put`. -/
theorem leave (h : OnePutter w pool point) (hp : p.isPutting = false)
    (hroom : pool.size < pool.capacity → pool'.size < pool'.capacity) :
    OnePutter w pool' (Function.update point t p) := by
  have hnot : p.isPutting ≠ true := by rw [hp]; exact Bool.false_ne_true
  exact h.update (fun hput ↦ absurd hput hnot)
    (fun hl ↦ absurd (Point.isPutting_of_isLatching hl) hnot) fun _ ↦ hroom

theorem advance (h : OnePutter w s.pool s.point) (hc : Consistent s)
    (hstep : step s (.advance t) = some s') : OnePutter w s'.pool s'.point := by
  have honly := h.only t
  cases hp : s.point t with
  | idle => simp only [step, hp, reduceCtorEq] at hstep
  | waiting b =>
    rw [hp] at honly
    simp only [step, hp, Option.some_inj] at hstep
    subst hstep
    split
    next hlt => exact h.update (fun _ ↦ honly rfl) (fun _ ↦ hlt) fun _ ↦ id
    next => exact h
  | latching b =>
    rw [hp] at honly
    cases hl : s.latch with
    | some u => simp only [step, hp, hl, reduceCtorEq] at hstep
    | none =>
      simp only [step, hp, hl, Option.some_inj] at hstep
      subst hstep
      exact h.update (fun _ ↦ honly rfl) (fun hl ↦ absurd hl Bool.false_ne_true) fun _ ↦ id
  | adding b =>
    rw [hp] at honly
    simp only [step, hp, Option.some_inj] at hstep
    subst hstep
    exact h.update (fun _ ↦ honly rfl) (fun hl ↦ absurd hl Bool.false_ne_true)
      fun hne ↦ absurd (honly rfl) hne
  | storing idx b =>
    simp only [step, hp, Option.some_inj] at hstep
    subst hstep
    exact h.leave rfl id
  | collecting =>
    cases hl : s.latch with
    | some u => simp only [step, hp, hl, reduceCtorEq] at hstep
    | none =>
      simp only [step, hp, hl, Option.some_inj] at hstep
      subst hstep
      exact h.leave rfl id
  | looping i =>
    simp only [step, hp, Option.some_inj] at hstep
    subst hstep
    split
    next => exact h.leave rfl id
    next => exact h.leave rfl id
  | moving i =>
    simp only [step, hp, Option.some_inj] at hstep
    subst hstep
    exact h.leave rfl id
  | exchanging =>
    simp only [step, hp, Option.some_inj] at hstep
    subst hstep
    obtain ⟨out, xs, hst⟩ := hc.stocked_inside hp rfl
    refine h.leave rfl fun _ ↦ ?_
    change 0 < s.pool.capacity
    rw [hst.capacity]
    decide
  | unlatching =>
    simp only [step, hp, Option.some_inj] at hstep
    subst hstep
    exact h.leave rfl id

/-- **The step lemma.** -/
theorem step (h : OnePutter w s.pool s.point) (hc : Consistent s) {a : Action T β}
    (ha : PutsBy w a) (hstep : LogBufferPool.step s a = some s') :
    OnePutter w s'.pool s'.point := by
  cases a with
  | advance t => exact h.advance hc hstep
  | put t b =>
    rw [LogBufferPool.step] at hstep
    split at hstep
    · cases hstep
      exact h.update (fun _ ↦ ha) (fun hl ↦ absurd hl Bool.false_ne_true) fun _ ↦ id
    · cases hstep
  | getAllBuffers t =>
    rw [LogBufferPool.step] at hstep
    split at hstep
    · cases hstep
      exact h.leave rfl id
    · cases hstep

/-- **The run lemma.** -/
theorem run {as : List (Action T β)} (has : ∀ a ∈ as, PutsBy w a)
    (hrun : (machine T β).run (LogBufferPool.init T β) as = some s) :
    Consistent s ∧ OnePutter w s.pool s.point := by
  refine Machine.PreservesUnder.run (C := fun _ a ↦ PutsBy w a)
    (I := fun s ↦ Consistent s ∧ OnePutter w s.pool s.point) ?_ ⟨consistent_init, .init⟩
    (Machine.along_of_forall_mem has) hrun
  rintro s s' a ⟨hc, h⟩ ha hstep
  exact ⟨hc.step (h.fresh a) hstep, h.step hc ha hstep⟩

end OnePutter

/-! ## The destructor -/

/-- `buffers_[i].release()` -/
def release (pool : LogBufferPool β) (i : UInt32) : LogBufferPool β :=
  { pool with buffers := Function.update pool.buffers i none }

/-- The loop of the destructor. -/
def destructorBody (pool : LogBufferPool β) : LogBufferPool β :=
  (List.range pool.size.toNat).foldl (fun pool i ↦ pool.release (.ofNat i)) pool

/-- The buffers that the slots own, the last slot first. -/
def owned (pool : LogBufferPool β) : List β :=
  (List.range 16).reverse.filterMap fun i ↦ pool.buffers (.ofNat i)

/-- The buffers that are deleted with the array of slots, after the loop. -/
def destroy (pool : LogBufferPool β) : List β := pool.destructorBody.owned

theorem releaseLoop_buffers (pool : LogBufferPool β) {n : ℕ} (hn : n ≤ 16) (i : UInt32) :
    ((List.range n).foldl (fun pool i ↦ pool.release (.ofNat i)) pool).buffers i =
      if i.toNat < n then none else pool.buffers i := by
  induction n with
  | zero => rfl
  | succ n ih =>
    rw [List.range_succ, List.foldl_concat]
    by_cases hi : i = UInt32.ofNat n
    · have hlt : i.toNat < n + 1 := by
        rw [hi, UInt32.toNat_ofNat_of_lt' ((Nat.lt_of_succ_le hn).trans (by decide))]
        exact Nat.lt_succ_self n
      rw [if_pos hlt, hi]
      exact Function.update_self _ _ _
    · have hne : i.toNat ≠ n := fun heq ↦ hi (by rw [← heq, UInt32.ofNat_toNat])
      refine (Function.update_of_ne hi _ _).trans ?_
      rw [ih (by omega)]
      by_cases hlt : i.toNat < n
      · rw [if_pos hlt, if_pos (by omega)]
      · rw [if_neg hlt, if_neg (by omega)]

namespace Stocked

variable {pool : LogBufferPool β} {put : List β} {handed : List (Option β)} {out xs : List β}

/-- Between two calls the slots own what has been put and not collected. -/
theorem owned (h : Stocked pool put handed .idle out xs) : pool.owned.reverse = xs := by
  have hslots (i : ℕ) (hi : i ∈ List.range 16) : pool.buffers (.ofNat i) = xs[i]? := by
    rw [List.mem_range] at hi
    rw [h.slots, UInt32.toNat_ofNat_of_lt' (hi.trans (by decide))]
    rfl
  have hroom : xs.length ≤ 16 := h.room
  rw [LogBufferPool.owned, List.filterMap_reverse, List.reverse_reverse,
    List.filterMap_congr hslots, Ring.Holds.filterMap_range_getElem?, List.take_of_length_le hroom]

theorem destroy (h : Stocked pool put handed .idle out xs) : pool.destroy = [] := by
  have hsize : pool.size.toNat = xs.length := h.size
  have hroom : xs.length ≤ 16 := h.room
  refine List.filterMap_eq_nil_iff.mpr fun i _ ↦ ?_
  rw [destructorBody, hsize, releaseLoop_buffers pool hroom]
  split_ifs with hi
  · rfl
  · rw [h.slots]
    exact List.getElem?_eq_none (Nat.not_lt.mp hi)

end Stocked

/-- **One thread that puts.** In every run in which all calls of `Put` are made by one thread, slot
accesses are in range and on slots in the right state. Between two calls, what was put is what was
handed out, in this order, followed by what the slots own. -/
theorem one_putter_loses_nothing [DecidableEq T] {w : T} {as : List (Action T β)} {s : State T β}
    (hrun : (machine T β).run (init T β) as = some s) (has : ∀ a ∈ as, PutsBy w a) :
    Safe s ∧ (s.latch = none →
      s.put.map some = s.handed ++ s.pool.owned.reverse.map some) := by
  obtain ⟨hc, -⟩ := OnePutter.run has hrun
  refine ⟨hc.safe, fun hfree ↦ ?_⟩
  obtain ⟨out, xs, hst⟩ := hc.stocked_free hfree
  have hput : s.put = out ++ xs ++ [] := hst.put
  have hhanded : s.handed = (out ++ []).map some := hst.handed
  rw [hst.owned, hput, hhanded, List.append_nil, List.append_nil, List.map_append]

/-- One buffer put, and collected by the other thread. -/
def collected : List (Action Bool ℕ) :=
  [.put false 7, .advance false, .advance false, .getAllBuffers true, .advance false,
    .advance false, .advance false, .advance true, .advance true, .advance true, .advance true,
    .advance true, .advance true]

theorem one_putter_collected :
    ∃ s, (machine Bool ℕ).run (init Bool ℕ) collected = some s ∧ Safe s ∧
      s.put.map some = s.handed ++ s.pool.owned.reverse.map some := by
  have h := @one_putter_loses_nothing Bool ℕ _ false collected _ rfl (by decide)
  exact ⟨_, rfl, h.1, h.2 rfl⟩

/-- **The destructor leaks.** After any run in which the readings of the waiting `Put`s are fresh,
destroying the pool between two calls deletes nothing, so that all that the slots own is leaked,
and that is all that was put and not handed out. -/
theorem destroy_leaks [DecidableEq T] {as : List (Action T β)} {s : State T β}
    (hrun : (machine T β).run (init T β) as = some s)
    (hfresh : (machine T β).Along Fresh (init T β) as) (hfree : s.latch = none) :
    s.pool.destroy = [] ∧ s.pool.owned.reverse = s.put.drop s.handed.length := by
  obtain ⟨out, xs, hst⟩ := (consistent_init.run hfresh hrun).stocked_free hfree
  have hput : s.put = out ++ xs ++ [] := hst.put
  have hhanded : s.handed = (out ++ []).map some := hst.handed
  refine ⟨hst.destroy, ?_⟩
  rw [hst.owned, hput, hhanded, List.append_nil, List.append_nil, List.length_map,
    List.drop_left]

theorem destroy_leaks_wholePut :
    ∃ s, (machine Bool ℕ).run (init Bool ℕ) (wholePut 7) = some s ∧ s.pool.destroy = [] ∧
      s.pool.owned.reverse = s.put.drop s.handed.length :=
  ⟨_, rfl, @destroy_leaks Bool ℕ _ (wholePut 7) _ rfl (by decide) rfl⟩

end LogBufferPool

end FulgurLogging
