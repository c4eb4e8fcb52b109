import FulgurLogging.BufferPool.CallSequences

/-!
# Destroying a pool

The destructor walks from the index of `tail_` to the index of `head_` and calls `release()`, which
gives a buffer up without deleting it. The slots are then destroyed, and each deletes the buffer it
still owns. So the loop leaks what it walks over, and what it does not walk over is deleted.

It walks over something only if the tail index is below the head index, and then over everything
the pool holds. A pool that is empty, full, or wrapped around the end of the array is destroyed as
it should be.
-/

namespace FulgurLogging

open Ring

namespace CircularBufferPool

variable {size : ℕ} {β : Type*}

/-- `buffers_[i].release()`, which leaves the slot null. -/
def release (pool : CircularBufferPool size β) (i : Fin size) :
    Option β × CircularBufferPool size β :=
  (pool.buffers i, pool.store i none)

/-- The loop of the destructor, from `i` up to the index of `head_`. What is released is dropped.
-/
def releaseLoop [NeZero size] (pool : CircularBufferPool size β) (i : ℕ) :
    CircularBufferPool size β :=
  if h : i < (getBufferPoolIndex size pool.head).val then
    releaseLoop (pool.release ⟨i, h.trans (Fin.isLt _)⟩).2 (i + 1)
  else pool
termination_by (getBufferPoolIndex size pool.head).val - i
decreasing_by
  change (getBufferPoolIndex size pool.head).val - (i + 1) < _
  omega

/-- The body of the destructor. -/
def destructorBody [NeZero size] (pool : CircularBufferPool size β) : CircularBufferPool size β :=
  pool.releaseLoop (getBufferPoolIndex size pool.tail).val

/-- The buffers deleted when the array of slots is destroyed, the last slot first. -/
def destroySlots (pool : CircularBufferPool size β) : List β :=
  (List.finRange size).reverse.filterMap pool.buffers

/-- The buffers that `delete pool` deletes. -/
def destroy [NeZero size] (pool : CircularBufferPool size β) : List β :=
  pool.destructorBody.destroySlots

/-! ## What the loop releases -/

section Loop

theorem release_buffers (pool : CircularBufferPool size β) (i : Fin size) :
    (pool.release i).2.buffers = Function.update pool.buffers i none := rfl

variable [NeZero size]

theorem releaseLoop_of_le {pool : CircularBufferPool size β} {i : ℕ}
    (h : (getBufferPoolIndex size pool.head).val ≤ i) : pool.releaseLoop i = pool := by
  rw [releaseLoop, dif_neg (Nat.not_lt.mpr h)]

/-- The loop empties the slots it walks over and leaves the others. -/
theorem releaseLoop_buffers (pool : CircularBufferPool size β) (i : ℕ) (j : Fin size) :
    (pool.releaseLoop i).buffers j =
      if i ≤ j.val ∧ j.val < (getBufferPoolIndex size pool.head).val then none
      else pool.buffers j := by
  induction pool, i using releaseLoop.induct with
  | case1 pool i h ih =>
    rw [releaseLoop, dif_pos h, ih, release_buffers]
    change (if i + 1 ≤ j.val ∧ j.val < (getBufferPoolIndex size pool.head).val then none else _) = _
    -- this round empties slot `i`, the later ones do not come back to it
    by_cases hj : j = ⟨i, h.trans (Fin.isLt _)⟩
    · rw [hj, Function.update_self, ite_self, if_pos ⟨le_rfl, h⟩]
    · have hne : j.val ≠ i := fun heq ↦ hj (Fin.ext heq)
      have hiff : i + 1 ≤ j.val ↔ i ≤ j.val := by omega
      rw [Function.update_of_ne hj]
      simp only [hiff]
  | case2 pool i h =>
    rw [releaseLoop, dif_neg h, if_neg]
    exact fun hj ↦ h (hj.1.trans_lt hj.2)

end Loop

/-! ## What is deleted -/

section Destroy

variable [NeZero size] {pool : CircularBufferPool size β} {lo : ℕ} {xs : List β}

/-- When the loop walks over nothing, everything in the pool is deleted. -/
theorem Tracks.destroy_perm (hsize : size ∣ 2 ^ 32) (h : pool.Tracks lo xs 0 0)
    (hle : (lo + xs.length) % size ≤ lo % size) : pool.destroy.Perm xs := by
  rw [destroy, destructorBody, releaseLoop_of_le]
  · exact h.window.filterMap_perm (List.reverse_perm _)
  · rw [h.head, h.tail, getBufferPoolIndex_ofNat hsize, getBufferPoolIndex_ofNat hsize]
    exact hle

/-- With the tail index below the head index, the window does not wrap around. -/
theorem add_mod_of_lt {len k : ℕ} (hlen : len ≤ size) (hlt : lo % size < (lo + len) % size)
    (hk : k ≤ len) : (lo + k) % size = lo % size + k := by
  have hr : lo % size < size := Nat.mod_lt lo (Nat.pos_of_neZero size)
  rw [← Nat.mod_add_mod lo size len] at hlt
  rw [← Nat.mod_add_mod lo size k]
  generalize lo % size = r at hr hlt ⊢
  refine Nat.mod_eq_of_lt ?_
  by_contra hwrap
  have hmod : (r + len) % size = r + len - size := by
    rw [Nat.mod_eq_sub_mod (by omega), Nat.mod_eq_of_lt (by omega)]
  omega

/-- Otherwise it walks over everything, and nothing is deleted. -/
theorem Tracks.destroy_eq_nil (hsize : size ∣ 2 ^ 32) (h : pool.Tracks lo xs 0 0)
    (hlt : lo % size < (lo + xs.length) % size) : pool.destroy = [] := by
  refine List.filterMap_eq_nil_iff.mpr fun j _ ↦ ?_
  rw [destructorBody, releaseLoop_buffers, h.head, h.tail, getBufferPoolIndex_ofNat hsize,
    getBufferPoolIndex_ofNat hsize, val_slot, val_slot, Nat.add_zero, Nat.add_zero]
  split_ifs with hj
  · rfl
  · rw [Option.eq_none_iff_forall_ne_some]
    intro b hb
    obtain ⟨k, hk, rfl⟩ := h.window.eq_some_iff.mp hb
    have hklt : k < xs.length := (List.getElem?_eq_some_iff.mp hk).1
    rw [val_slot, add_mod_of_lt h.window.length_le hlt hklt.le,
      add_mod_of_lt h.window.length_le hlt le_rfl] at hj
    omega

end Destroy

end CircularBufferPool

namespace CallSequence

variable {β : Type*}

/-- The buffers put and not yet returned. -/
def outstanding {size : ℕ} (s : State size β) : List β := s.put.drop s.returned.length

/-- **Destroying a pool.** After completed calls with the number outstanding between none and
`BUFFER_POOL_SIZE` throughout, destroying the pool deletes every outstanding buffer once, and no
other, exactly if the index of `head_` is not above the index of `tail_`. -/
theorem destroy_perm_iff {calls : List (Call β)} (h : StaysWithin bufferPoolSize calls) :
    (callAll bufferPoolSize calls).pool.destroy.Perm
        (outstanding (callAll bufferPoolSize calls)) ↔
      puts calls % bufferPoolSize ≤ gets calls % bufferPoolSize := by
  have hsize : bufferPoolSize ∣ 2 ^ 32 := by decide
  obtain ⟨out, xs, hs⟩ := h.served hsize
  obtain ⟨hputs, hgets⟩ := hs.counts
  have hout : outstanding (callAll bufferPoolSize calls) = xs := by
    rw [outstanding, hs.put, hs.returned, List.length_map, List.drop_left]
  rw [hout, hputs, hgets]
  rcases le_or_gt ((out.length + xs.length) % bufferPoolSize) (out.length % bufferPoolSize) with
    hle | hlt
  · exact iff_of_true (hs.tracks.destroy_perm hsize hle) hle
  · refine iff_of_false (fun hperm ↦ ?_) (not_le_of_gt hlt)
    rw [hs.tracks.destroy_eq_nil hsize hlt] at hperm
    rw [hperm.symm.eq_nil] at hlt
    exact Nat.lt_irrefl _ hlt

/-- An empty pool is destroyed after its one buffer has been handed out. -/
theorem destroy_passOne :
    (callAll bufferPoolSize [Call.put 7, .get]).pool.destroy.Perm
      (outstanding (callAll bufferPoolSize [Call.put 7, .get])) :=
  (@destroy_perm_iff ℕ [.put 7, .get] (by decide)).mpr (by decide)

/-- A pool that holds one buffer is destroyed and deletes nothing. -/
theorem destroy_put_one :
    StaysWithin bufferPoolSize [Call.put 7] ∧
      outstanding (callAll bufferPoolSize [Call.put 7]) = [7] ∧
      (callAll bufferPoolSize [Call.put 7]).pool.destroy = [] := by
  have hserved : Served (callAll bufferPoolSize [Call.put 7]) [] [7] :=
    served_init.call_put (by decide) (by decide) 7
  exact ⟨by decide, rfl, hserved.tracks.destroy_eq_nil (by decide) (by decide)⟩

end CallSequence

end FulgurLogging
