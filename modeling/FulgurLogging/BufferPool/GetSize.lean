import FulgurLogging.BufferPool.CallSequences

/-!
# The number of buffers available

`GetSize` subtracts the masked counters, takes a zero difference with unequal counters for a full
pool, and reduces the difference modulo `BUFFER_POOL_SIZE`. That macro is the text `1024 * 8`
without parentheses, so the last line computes `((size + 1024 * 8) % 1024) * 8`.

The result is therefore right for the empty pool and for the full one, where it is zero or the
special case applies, and in between it is a multiple of eight which the true count never equals.
Where the counters stand does not matter: the difference is exact as a signed integer, whether or
not the head index is below the tail index, and the reduction removes its sign.
-/

namespace FulgurLogging

open Ring

namespace CircularBufferPool

variable {β : Type*}

/-- `GetSize`, its macros expanded as text. -/
def getSize (pool : CircularBufferPool bufferPoolSize β) : UInt32 :=
  let head := pool.head
  let tail := pool.tail
  let size : Int32 := ((head &&& (1024 * 8 - 1)) - (tail &&& (1024 * 8 - 1))).toInt32
  if size = 0 ∧ head - tail > 0 then 1024 * 8
  -- `%` and `*` associate to the left
  else ((size + 1024 * 8) % 1024 * 8).toUInt32

/-! ## The value returned -/

/-- The last line of `GetSize`, on a difference of two indices. -/
theorem toNat_last_line {size : Int32} (hlo : -8192 < size.toInt) (hhi : size.toInt < 8192) :
    ((size + 1024 * 8) % 1024 * 8).toUInt32.toNat = ((size.toInt + 8192) % 1024 * 8).toNat := by
  have hcap : (1024 * 8 : Int32).toInt = 8192 := rfl
  have hkilo : (1024 : Int32).toInt = 1024 := rfl
  have height : (8 : Int32).toInt = 8 := rfl
  have hsum : (size + 1024 * 8).toInt = size.toInt + 8192 := by
    rw [Int32.toInt_add, hcap, Int.bmod_eq_of_le (by omega) (by omega)]
  have hmod : ((size + 1024 * 8) % 1024).toInt = (size.toInt + 8192) % 1024 := by
    rw [Int32.toInt_mod, hsum, hkilo, Int.tmod_eq_emod_of_nonneg (by omega)]
  have hprod : ((size + 1024 * 8) % 1024 * 8).toInt = (size.toInt + 8192) % 1024 * 8 := by
    rw [Int32.toInt_mul, hmod, height, Int.bmod_eq_of_le (by omega) (by omega)]
  have hnonneg : 0 ≤ (size + 1024 * 8) % 1024 * 8 := by
    rw [Int32.le_iff_toInt_le, hprod, Int32.toInt_zero]
    omega
  rw [Int32.toNat_toUInt32_of_le hnonneg, ← Int32.toNat_toInt, hprod]

/-- **The value of `GetSize`** on a pool at rest that holds `xs`. -/
theorem toNat_getSize {pool : CircularBufferPool bufferPoolSize β} {lo : ℕ} {xs : List β}
    (h : pool.Tracks lo xs 0 0) :
    pool.getSize.toNat =
      if xs.length = bufferPoolSize then bufferPoolSize else xs.length % 1024 * 8 := by
  have hle : xs.length ≤ bufferPoolSize := h.window.length_le
  have hhead : (lo + xs.length) % bufferPoolSize < bufferPoolSize := Nat.mod_lt _ (by decide)
  have htail : lo % bufferPoolSize < bufferPoolSize := Nat.mod_lt _ (by decide)
  have hdiff := toInt_sub_index (hhead.trans (by decide)) (htail.trans (by decide))
  have hmask : (1024 * 8 - 1 : UInt32) = UInt32.ofNat (bufferPoolSize - 1) := by decide
  have hsize : bufferPoolSize ∣ 2 ^ 32 := by decide
  have hcounters : UInt32.ofNat (lo + xs.length) - UInt32.ofNat lo > 0 ↔ xs.length ≠ 0 := by
    rw [UInt32.ofNat_add, UInt32.add_comm, UInt32.add_sub_cancel, gt_iff_lt, UInt32.lt_iff_toNat_lt,
      UInt32.toNat_ofNat_of_lt' (hle.trans_lt (by decide))]
    exact Nat.pos_iff_ne_zero
  rw [getSize, h.head, h.tail, Nat.add_zero, Nat.add_zero]
  simp only [hmask, ofNat_and_mask hsize, hcounters]
  generalize (UInt32.ofNat ((lo + xs.length) % bufferPoolSize) -
    UInt32.ofNat (lo % bufferPoolSize)).toInt32 = size at hdiff ⊢
  have hzero : size = 0 ↔ xs.length = 0 ∨ xs.length = bufferPoolSize := by
    rw [← Int32.toInt_inj, hdiff, Int32.toInt_zero]
    simp only [bufferPoolSize] at hle ⊢
    omega
  by_cases hfull : xs.length = bufferPoolSize
  · rw [if_pos hfull, if_pos ⟨hzero.mpr (.inr hfull), by rw [hfull]; decide⟩]
    rfl
  · rw [if_neg hfull, if_neg, toNat_last_line, hdiff]
    · simp only [bufferPoolSize] at hle hfull ⊢
      omega
    · rw [hdiff]
      simp only [bufferPoolSize] at htail ⊢
      omega
    · rw [hdiff]
      simp only [bufferPoolSize] at hhead ⊢
      omega
    · rintro ⟨hsize, hne⟩
      exact (hzero.mp hsize).elim hne hfull

end CircularBufferPool

namespace CallSequence

variable {β : Type*}

/-- **`GetSize` counts correctly exactly at the two ends.** After completed calls with the number
outstanding between none and `BUFFER_POOL_SIZE` throughout, `GetSize` returns that number if and
only if the pool is empty or full. -/
theorem getSize_eq_outstanding_iff {calls : List (Call β)} (h : StaysWithin bufferPoolSize calls) :
    (callAll bufferPoolSize calls).pool.getSize.toNat = puts calls - gets calls ↔
      puts calls = gets calls ∨ puts calls = gets calls + bufferPoolSize := by
  obtain ⟨out, xs, hs⟩ := h.served (by decide)
  obtain ⟨hputs, hgets⟩ := hs.counts
  have hle : xs.length ≤ bufferPoolSize := hs.tracks.window.length_le
  rw [CircularBufferPool.toNat_getSize hs.tracks, hputs, hgets]
  simp only [bufferPoolSize] at hle ⊢
  split <;> omega

/-- One buffer handed out and none left. -/
def passOne : List (Call ℕ) := [.put 7, .get]

theorem getSize_passOne : (callAll bufferPoolSize passOne).pool.getSize.toNat = 0 :=
  (@getSize_eq_outstanding_iff ℕ passOne (by decide)).mpr (.inl rfl)

/-- With one buffer available `GetSize` answers eight. -/
theorem getSize_put_one :
    StaysWithin bufferPoolSize [Call.put 7] ∧
      puts [Call.put 7] - gets [Call.put 7] = 1 ∧
      (callAll bufferPoolSize [Call.put 7]).pool.getSize.toNat = 8 :=
  ⟨by decide, rfl, rfl⟩

end CallSequence

end FulgurLogging
