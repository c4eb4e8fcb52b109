import FulgurLogging.BufferPool.Progress
import FulgurLogging.BufferPool.Sharing

/-!
# `Get` with a `memset` behind its move

The pool of the logging directory differs from the other one by one access: having moved the buffer
out, `Get` sets the slot to null once more. Without other threads this writes null over null. With
them it is an access to a slot that the thread no longer owns, and a buffer that was stored there
since the move is wiped out, without being deleted.

## The next lap

A store reaches the slot before its `memset` only if the pool has been filled up in the meantime,
as far as the slot just emptied. Two threads that feed each other cannot do that: the buffer that
was moved out is still in the hand of the thread that is about to clear, so one slot of its pool is
vacant, and among the vacant ones the slot just emptied is the last to be filled. The invariant
`Clears` finds that slot from `tail_`, which no other thread advances. So the `memset` may be left
out, and what was shown of the pool without it carries over.
-/

namespace FulgurLogging

open Ring Transition Ownership

namespace CircularBufferPool

variable {size : ℕ} {β : Type*} {pool : CircularBufferPool size β} {idx : Fin size}

/-- `PL_MEMSET(buffers_ + current_idx, 0, sizeof(std::unique_ptr<LogBuffer>))`, which does not
delete what the slot owned. -/
def memset (pool : CircularBufferPool size β) (idx : Fin size) : CircularBufferPool size β :=
  { pool with buffers := Function.update pool.buffers idx none }

theorem memset_buffers (pool : CircularBufferPool size β) (idx : Fin size) :
    (pool.memset idx).buffers = Function.update pool.buffers idx none := rfl

/-- Null over null. -/
theorem memset_eq_self (h : pool.buffers idx = none) : pool.memset idx = pool := by
  rw [memset, Function.update_eq_self_iff.mpr h.symm]

/-- `Get` of the logging directory, run without interruption. -/
def getMemset [NeZero size] (pool : CircularBufferPool size β) :
    Option (Option β × CircularBufferPool size β) :=
  pool.get.map fun r ↦ (r.1, r.2.memset pool.tailFetchAdd.1)

/-- Without interruption, the two pools are one. -/
theorem getMemset_eq_get [NeZero size] : pool.getMemset = pool.get := by
  rw [getMemset, get]
  split
  · rw [Option.map_some, memset_eq_self]
    rw [moveOut_snd, store_buffers, Function.update_self]
  · rfl

/-- The index before the one that a counter falls on. -/
theorem getBufferPoolIndex_sub_one [NeZero size] (hsize : size ∣ 2 ^ 32) (n : ℕ) :
    getBufferPoolIndex size (UInt32.ofNat n - 1) = slot size (n + (size - 1)) := by
  have hpos : 0 < size := Nat.pos_of_neZero size
  have hlap : 2 ^ 32 - 1 ≡ size - 1 [MOD size] := by
    refine Nat.ModEq.add_right_cancel' 1 ?_
    rw [Nat.sub_add_cancel (by decide), Nat.sub_add_cancel hpos]
    exact ((Nat.modEq_zero_iff_dvd).mpr hsize).trans ((Nat.modEq_zero_iff_dvd).mpr dvd_rfl).symm
  have hsub : UInt32.ofNat n - 1 = UInt32.ofNat (n + (2 ^ 32 - 1)) := by
    rw [UInt32.ofNat_add, UInt32.sub_eq_add_neg]
    rfl
  rw [hsub, getBufferPoolIndex_ofNat hsize]
  exact slot_eq_iff.mpr (hlap.add_left n)

end CircularBufferPool

/-- The accesses of `Put` leave `tail_` as it is. -/
theorem Mover.act_tail {size : ℕ} [NeZero size] {β : Type*} {m : Mover size β}
    (hm : m.taking = false) (pool : CircularBufferPool size β) :
    (m.act pool).1.tail = pool.tail := by
  cases m with
  | holding => rfl
  | storing => rfl
  | _ => cases hm

namespace Memset

open Traffic

/-! ## Accesses -/

/-- Threads that pass buffers between pools, and for each the slot that it has moved a buffer out of
and is about to clear. -/
structure State (size : ℕ) (P T β : Type*) where
  traffic : Traffic.State size P T β
  clearing : T → Option (Fin size)

section Access

variable {size : ℕ} {P T β : Type*} [DecidableEq T] {s : State size P T β} {t u : T}
  {idx : Fin size}

/-- The thread has no slot to clear any more. -/
def State.cleared (s : State size P T β) (t : T) : State size P T β :=
  { s with clearing := Function.update s.clearing t none }

theorem clearing_cleared : (s.cleared t).clearing = Function.update s.clearing t none := rfl

theorem clearing_cleared_self : (s.cleared t).clearing t = none := by
  rw [clearing_cleared, Function.update_self]

theorem clearing_of_cleared (h : (s.cleared t).clearing u = some idx) :
    s.clearing u = some idx := by
  by_cases hu : u = t
  · rw [hu, clearing_cleared_self] at h
    cases h
  · rwa [clearing_cleared, Function.update_of_ne hu] at h

variable [NeZero size] [DecidableEq P] {r : Routes P T}

/-- The next access of one thread. -/
def advance (r : Routes P T) (s : State size P T β) (t : T) : State size P T β :=
  match s.clearing t with
  | some idx =>
    { traffic := { s.traffic with
        pool := Function.update s.traffic.pool (r.source t)
          ((s.traffic.pool (r.source t)).memset idx) }
      clearing := Function.update s.clearing t none }
  | none =>
    { traffic := Traffic.advance r s.traffic t
      clearing := Function.update s.clearing t (s.traffic.mover t).movingAt }

def machine (size : ℕ) [NeZero size] (β : Type*) (r : Routes P T) :
    Machine (State size P T β) T := ⟨fun s t ↦ some (advance r s t)⟩

/-- The state an interleaving leads to. -/
def after (r : Routes P T) (s : State size P T β) (as : List T) : State size P T β :=
  as.foldl (advance r) s

theorem after_cons (as : List T) : after r s (t :: as) = after r (advance r s t) as := rfl

theorem run_eq_after (s : State size P T β) (as : List T) :
    (machine size β r).run s as = some (after r s as) := by
  induction as generalizing s with
  | nil => rfl
  | cons t as ih => rw [Machine.run_cons_of_step rfl, ih, after_cons]

theorem advance_of_none (h : s.clearing t = none) :
    advance r s t = ⟨Traffic.advance r s.traffic t,
      Function.update s.clearing t (s.traffic.mover t).movingAt⟩ := by
  rw [advance, h]

theorem advance_of_some (h : s.clearing t = some idx) :
    advance r s t = { s.cleared t with traffic := { s.traffic with
      pool := Function.update s.traffic.pool (r.source t)
        ((s.traffic.pool (r.source t)).memset idx) } } := by
  rw [advance, h]
  rfl

/-- A `memset` that finds its slot null. -/
theorem advance_of_null (h : s.clearing t = some idx)
    (hnull : (s.traffic.pool (r.source t)).buffers idx = none) :
    advance r s t = s.cleared t := by
  rw [advance_of_some h, CircularBufferPool.memset_eq_self hnull, Function.update_eq_self]
  rfl

end Access

/-! ## Two pools that feed each other -/

open Circulation

variable {size : ℕ} [NeZero size] {β : Type*} {N : ℕ} {s : State size Side Side β} {t u : Side}
  {idx : Fin size}

/-- The two pools, and both threads between two rounds. -/
def start (a b : CircularBufferPool size β) : State size Side Side β :=
  ⟨Circulation.start a b, fun _ ↦ none⟩

/-- A thread about to clear has its buffer in hand, and the slot is that of the last ticket of `Get`
drawn from its pool. -/
structure Clears (N : ℕ) (s : State size Side Side β) : Prop where
  circulates : ∃ lo xs, Circulates N s.traffic lo xs
  holding : ∀ t idx, s.clearing t = some idx → ∃ buffer, s.traffic.mover t = .holding buffer
  index : ∀ t idx, s.clearing t = some idx →
    idx = getBufferPoolIndex size ((s.traffic.pool t).tail - 1)

/-- **The `memset` finds its slot null.** -/
theorem Clears.vacant (hsize : size ∣ 2 ^ 32) (hN : N ≤ size) (h : Clears N s)
    (hclearing : s.clearing t = some idx) : (s.traffic.pool t).buffers idx = none := by
  have hpos : 0 < size := Nat.pos_of_neZero size
  obtain ⟨lo, xs, hcirc⟩ := h.circulates
  obtain ⟨buffer, hm⟩ := h.holding t idx hclearing
  have hcount := hcirc.count t
  have htracks := hcirc.tracks t
  rw [hm, Mover.load] at hcount
  rw [hm] at htracks
  have htail : (s.traffic.pool t).tail = UInt32.ofNat (lo t) := htracks.tail
  -- the slot before the window is in use only if all are, but one buffer is in hand
  rw [h.index t idx hclearing, htail,
    CircularBufferPool.getBufferPoolIndex_sub_one hsize, htracks.window.slot_add _ (by omega)]
  exact List.getElem?_eq_none (by omega)

/-- The step lemma, for a `memset`. -/
theorem Clears.cleared (h : Clears N s) (t : Side) : Clears N (s.cleared t) :=
  ⟨h.circulates, fun u idx hu ↦ h.holding u idx (clearing_of_cleared hu),
    fun u idx hu ↦ h.index u idx (clearing_of_cleared hu)⟩

/-- The thread that has moved a buffer out is about to clear the slot it drew. -/
theorem holding_advance {s : Traffic.State size Side Side β} {lo : Side → ℕ}
    {xs : Side → List β} (hsize : size ∣ 2 ^ 32) (h : Circulates N s lo xs)
    (hm : s.mover t = .moving idx) :
    (∃ buffer, (Traffic.advance routes s t).mover t = .holding buffer) ∧
      idx = getBufferPoolIndex size (((Traffic.advance routes s t).pool t).tail - 1) := by
  have htouched : touched routes s t = t := by
    rw [touched, hm]
    rfl
  have hpool := advance_pool_touched (r := routes) (s := s) (t := t)
  have hmover := advance_mover_self (r := routes) (s := s) (t := t)
  have htracks := h.tracks t
  have hfits := h.fits t
  rw [htouched, hm, Mover.act] at hpool
  rw [hm, Mover.act] at hmover
  rw [hm, Mover.getTickets] at htracks
  rw [hm] at hfits
  refine ⟨⟨_, hmover⟩, ?_⟩
  rw [hpool, CircularBufferPool.moveOut_snd, CircularBufferPool.store, htracks.tail,
    UInt32.ofNat_add, UInt32.ofNat_one, UInt32.add_sub_cancel,
    CircularBufferPool.getBufferPoolIndex_ofNat hsize]
  exact hfits.1

/-- The other thread does not draw tickets of `Get` from this pool. -/
theorem tail_advance {s : Traffic.State size Side Side β} (hne : u ≠ t) :
    ((Traffic.advance routes s t).pool u).tail = (s.pool u).tail := by
  by_cases hu : u = touched routes s t
  · rw [hu, advance_pool_touched]
    refine Mover.act_tail ?_ _
    by_contra htaking
    rw [touched, if_pos (Bool.eq_true_of_not_eq_false htaking)] at hu
    exact hne hu
  · rw [advance_pool_of_ne hu]

/-- **The step lemma.** -/
theorem Clears.advance (hsize : size ∣ 2 ^ 32) (hN : N ≤ size) (h : Clears N s) (t : Side) :
    Clears N (advance routes s t) := by
  cases hclearing : s.clearing t with
  | some idx =>
    rw [advance_of_null hclearing (h.vacant hsize hN hclearing)]
    exact h.cleared t
  | none =>
    rw [advance_of_none hclearing]
    obtain ⟨lo, xs, hcirc⟩ := h.circulates
    -- `t` has a slot to clear only if this access moved a buffer out of it
    have hmoved (idx : Fin size) (hidx : (s.traffic.mover t).movingAt = some idx) :=
      holding_advance hsize hcirc (Mover.movingAt_eq_some_iff.mp hidx)
    refine ⟨hcirc.advance hsize hN t, fun u idx hu ↦ ?_, fun u idx hu ↦ ?_⟩
    · by_cases hut : u = t
      · subst hut
        exact (hmoved idx ((Function.update_self u _ _).symm.trans hu)).1
      · obtain ⟨buffer, hm⟩ := h.holding u idx ((Function.update_of_ne hut _ _).symm.trans hu)
        exact ⟨buffer, (advance_mover_of_ne hut).trans hm⟩
    · by_cases hut : u = t
      · subst hut
        exact (hmoved idx ((Function.update_self u _ _).symm.trans hu)).2
      · rw [tail_advance hut]
        exact h.index u idx ((Function.update_of_ne hut _ _).symm.trans hu)

theorem Clears.after (hsize : size ∣ 2 ^ 32) (hN : N ≤ size) (h : Clears N s) (as : List Side) :
    Clears N (after routes s as) := by
  induction as generalizing s with
  | nil => exact h
  | cons t as ih => exact ih (h.advance hsize hN t)

theorem clears_start {a b : CircularBufferPool size β} {lo lo' : ℕ} {xs : List β}
    (ha : a.Tracks lo xs 0 0) (hb : b.Tracks lo' [] 0 0) : Clears xs.length (start a b) :=
  ⟨circulates_start ha hb, nofun, nofun⟩

/-! ## With and without the `memset` -/

/-- Leaving out the `memset`s. -/
theorem Clears.exists_sublist (hsize : size ∣ 2 ^ 32) (hN : N ≤ size) (h : Clears N s)
    (as : List Side) :
    ∃ bs, bs.Sublist as ∧
      (Memset.after routes s as).traffic = Traffic.after routes s.traffic bs := by
  induction as generalizing s with
  | nil => exact ⟨[], .refl [], rfl⟩
  | cons t as ih =>
    obtain ⟨bs, hsub, heq⟩ := ih (h.advance hsize hN t)
    -- a step that clears is dropped, and any other is kept
    cases hclearing : s.clearing t with
    | some idx =>
      rw [advance_of_null hclearing (h.vacant hsize hN hclearing)] at heq
      refine ⟨bs, hsub.cons t, ?_⟩
      rw [after_cons, advance_of_null hclearing (h.vacant hsize hN hclearing)]
      exact heq
    | none =>
      rw [advance_of_none hclearing] at heq
      refine ⟨t :: bs, hsub.cons_cons t, ?_⟩
      rw [after_cons, advance_of_none hclearing, heq, Traffic.after_cons]

/-- Putting a `memset` in wherever the thread has one to make first. -/
theorem Clears.exists_superlist (hsize : size ∣ 2 ^ 32) (hN : N ≤ size) (h : Clears N s)
    (bs : List Side) :
    ∃ as, bs.Sublist as ∧
      (Memset.after routes s as).traffic = Traffic.after routes s.traffic bs := by
  induction bs generalizing s with
  | nil => exact ⟨[], .refl [], rfl⟩
  | cons t bs ih =>
    cases hclearing : s.clearing t with
    | some idx =>
      obtain ⟨as, hsub, heq⟩ := ih ((h.cleared t).advance hsize hN t)
      rw [advance_of_none clearing_cleared_self] at heq
      refine ⟨t :: t :: as, (hsub.cons_cons t).cons t, ?_⟩
      rw [after_cons, after_cons, advance_of_null hclearing (h.vacant hsize hN hclearing),
        advance_of_none clearing_cleared_self, heq, Traffic.after_cons]
      rfl
    | none =>
      obtain ⟨as, hsub, heq⟩ := ih (h.advance hsize hN t)
      rw [advance_of_none hclearing] at heq
      refine ⟨t :: as, hsub.cons_cons t, ?_⟩
      rw [after_cons, advance_of_none hclearing, heq, Traffic.after_cons]

/-- **The `memset` goes unnoticed.** Two threads feed each other with at most one buffer per slot.
Every interleaving with the `memset` leaves pools and hands as one does that makes the same accesses
without it, and every interleaving without it is one of these. So each buffer stays in exactly one
place, and every `memset` finds its slot null. -/
theorem memset_unnoticed (hsize : size ∣ 2 ^ 32) {a b : CircularBufferPool size β} {lo lo' : ℕ}
    {xs : List β} (ha : a.Tracks lo xs 0 0) (hb : b.Tracks lo' [] 0 0) (hxs : xs.Nodup) :
    (∀ as, (∃ bs, bs.Sublist as ∧ (after routes (start a b) as).traffic =
          Traffic.after routes (Circulation.start a b) bs) ∧
        (∀ x ∈ xs, ∃! p, (after routes (start a b) as).traffic.content p = some x) ∧
        ∀ t idx, (after routes (start a b) as).clearing t = some idx →
          ((after routes (start a b) as).traffic.pool t).buffers idx = none) ∧
      ∀ bs, ∃ as, bs.Sublist as ∧ (after routes (start a b) as).traffic =
        Traffic.after routes (Circulation.start a b) bs := by
  have hN : xs.length ≤ size := ha.window.length_le
  have hstart := clears_start ha hb
  refine ⟨fun as ↦ ?_, hstart.exists_superlist hsize hN⟩
  obtain ⟨bs, hsub, heq⟩ := hstart.exists_sublist hsize hN as
  have hplain := (conserved_start ha hb hxs).run hsize hN (Traffic.run_eq_after _ bs)
  refine ⟨⟨bs, hsub, heq⟩, fun x hx ↦ ?_, fun t idx ↦ ?_⟩
  · rw [heq]
    exact hplain.placed.existsUnique hx
  · exact (hstart.after hsize hN as).vacant hsize hN

/-- A pool of two slots with a buffer in each. -/
def twoBuffers : CircularBufferPool 2 ℕ := ⟨fun idx ↦ some idx.val, 2, 0⟩

theorem tracks_twoBuffers : twoBuffers.Tracks 0 [0, 1] 0 0 :=
  ⟨⟨Nat.le_refl 2, by decide⟩, rfl, rfl⟩

/-- The first thread has moved a buffer out and the second has waited for it in vain. -/
theorem memset_unnoticed_twoBuffers :
    (after routes (start twoBuffers (.new _ ℕ)) [.a, .b, .a, .b, .a]).clearing .a = some 0 ∧
      ((after routes (start twoBuffers (.new _ ℕ)) [.a, .b, .a, .b, .a]).traffic.pool .a).buffers
        0 = none :=
  ⟨rfl, ((memset_unnoticed (by decide) tracks_twoBuffers CircularBufferPool.tracks_new
    (by decide)).1 [.a, .b, .a, .b, .a]).2.2 .a 0 rfl⟩

end Memset

end FulgurLogging
