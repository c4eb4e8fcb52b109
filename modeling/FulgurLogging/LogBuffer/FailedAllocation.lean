import FulgurLogging.Lib.Machine
import FulgurLogging.LogBuffer.WriteData
import Mathlib.Data.UInt
import Mathlib.Tactic.Ring

/-!
# A growth that fails

The loop of `WriteData` doubles `capacity_` before it asks for the new array. When the request
throws, `capacity_` says twice what `elastic_data_` has, and a later message of that length is
copied past the end. The exception is a capacity that wraps around to a smaller one.

Here a record has any length and a buffer any capacity. What a call leaves behind depends on the
first request that fails, which `Requests` describes without running the loop.
-/

namespace FulgurLogging

open Transition

namespace LogBuffer

/-- `size_ <= capacity_`, and `elastic_data_` has that many bytes. -/
def Intact (b : LogBuffer) : Prop :=
  b.size ≤ b.capacity ∧ b.capacity.toNat ≤ b.elasticData.length

/-- What a request that throws leaves behind. -/
def doubleFailed (b : LogBuffer) : LogBuffer := { b with capacity := b.capacity * 2 }

/-! ## The requests of the loop -/

/-- The loop comes to its `k`-th request: the buffer is empty, the message fits into none of the
capacities so far, and the requests so far succeeded. -/
structure Requests (available : ℕ → Bool) (b : LogBuffer) (len : UInt64) (k : ℕ) : Prop where
  empty : b.size = 0
  small : ∀ j ≤ k, (double^[j] b).capacity < len
  granted : ∀ j < k, available j = true

section Loop

variable {available : ℕ → Bool} {b : LogBuffer} {len : UInt64} {fuel : ℕ}

theorem lt_add_size_iff (hsize : b.size = 0) : len + b.size > b.capacity ↔ b.capacity < len := by
  rw [hsize, UInt64.add_zero, gt_iff_lt]

theorem requests_zero (hsize : b.size = 0) (hlt : b.capacity < len) :
    Requests available b len 0 := by
  refine ⟨hsize, fun j hj ↦ ?_, fun j hj ↦ absurd hj (Nat.not_lt_zero j)⟩
  rw [Nat.le_zero.mp hj]
  exact hlt

theorem requests_succ_iff {k : ℕ} : Requests available b len (k + 1) ↔
    b.capacity < len ∧ available 0 = true ∧
      Requests (fun i ↦ available (i + 1)) b.double len k := by
  constructor
  · intro h
    exact ⟨h.small 0 (Nat.zero_le _), h.granted 0 (Nat.succ_pos k), h.empty,
      fun j hj ↦ h.small (j + 1) (Nat.succ_le_succ hj),
      fun j hj ↦ h.granted (j + 1) (Nat.succ_lt_succ hj)⟩
  · rintro ⟨hlt, h0, h⟩
    refine ⟨h.empty, fun j hj ↦ ?_, fun j hj ↦ ?_⟩
    · cases j with
      | zero => exact hlt
      | succ j => exact h.small j (Nat.le_of_succ_le_succ hj)
    · cases j with
      | zero => exact h0
      | succ j => exact h.granted j (Nat.lt_of_succ_lt_succ hj)

/-- How the loop can end. The induction is on the fuel, with the buffer as the loop finds it. -/
theorem makeRoom_cases {e : Exit} {b' : LogBuffer}
    (h : makeRoom available len fuel b = some (e, b')) :
    (e = .room ∧ ¬len + b'.size > b'.capacity ∧ ∃ k, (0 < k → b.size = 0) ∧ b' = double^[k] b) ∨
      (e = .refused ∧ b.size ≠ 0 ∧ b' = b) ∨
      (e = .badAlloc ∧ ∃ k, Requests available b len k ∧ available k = false ∧
        b' = (double^[k] b).doubleFailed) := by
  induction fuel generalizing available b with
  | zero => exact absurd h nofun
  | succ fuel ih =>
    rw [makeRoom] at h
    split_ifs at h with hgt hsize h0
    · have hlt : b.capacity < len := (lt_add_size_iff hsize).mp hgt
      rcases ih h with ⟨rfl, hroom, k, -, hk⟩ | ⟨-, hne, -⟩ | ⟨rfl, k, hrequests, hfails, hk⟩
      · exact .inl ⟨rfl, hroom, k + 1, fun _ ↦ hsize, hk⟩
      · exact absurd hsize hne
      · exact .inr (.inr ⟨rfl, k + 1, requests_succ_iff.mpr ⟨hlt, h0, hrequests⟩, hfails, hk⟩)
    · obtain ⟨rfl, rfl⟩ := h
      exact .inr (.inr ⟨rfl, 0, requests_zero hsize ((lt_add_size_iff hsize).mp hgt),
        Bool.eq_false_iff.mpr h0, rfl⟩)
    · obtain ⟨rfl, rfl⟩ := h
      exact .inr (.inl ⟨rfl, hsize, rfl⟩)
    · obtain ⟨rfl, rfl⟩ := h
      exact .inl ⟨rfl, hgt, 0, fun h0 ↦ absurd h0 (Nat.lt_irrefl 0), rfl⟩

/-- **Inversion.** A call that ends has copied the message after some doublings, refused it, or run
into a request that fails. -/
theorem writeRecord_cases {r : LogRecord} {outcome : Outcome} {b' : LogBuffer}
    (h : b.writeRecord available fuel r = some (outcome, b')) :
    (∃ k, (0 < k → b.size = 0) ∧
        ¬r.messageLength + (double^[k] b).size > (double^[k] b).capacity ∧
        (double^[k] b).copyData r.message r.messageLength = (outcome, b')) ∨
      (outcome = .returned false ∧ b' = b) ∨
      (outcome = .badAlloc ∧ ∃ k, Requests available b r.messageLength k ∧ available k = false ∧
        b' = (double^[k] b).doubleFailed) := by
  rw [writeRecord, writeData, Option.map_eq_some_iff] at h
  obtain ⟨⟨e, c⟩, hloop, hexit⟩ := h
  rcases makeRoom_cases hloop with ⟨rfl, hroom, k, hk, rfl⟩ | ⟨rfl, -, rfl⟩ |
      ⟨rfl, k, hrequest, hfails, rfl⟩
  · exact .inl ⟨k, hk, hroom, hexit⟩
  · obtain ⟨rfl, rfl⟩ := hexit
    exact .inr (.inl ⟨rfl, rfl⟩)
  · obtain ⟨rfl, rfl⟩ := hexit
    exact .inr (.inr ⟨rfl, k, hrequest, hfails, rfl⟩)

/-- The first request that fails ends the loop. -/
theorem makeRoom_of_requests {k : ℕ} (h : Requests available b len k)
    (hfails : available k = false) :
    makeRoom available len (k + 1) b = some (.badAlloc, (double^[k] b).doubleFailed) := by
  induction k generalizing available b with
  | zero =>
    have hgt := (lt_add_size_iff h.empty).mpr (h.small 0 le_rfl)
    rw [makeRoom, if_pos hgt, if_pos h.empty, if_neg (Bool.eq_false_iff.mp hfails)]
    rfl
  | succ k ih =>
    obtain ⟨hlt, h0, hrest⟩ := requests_succ_iff.mp h
    rw [makeRoom, if_pos ((lt_add_size_iff h.empty).mpr hlt), if_pos h.empty, if_pos h0]
    exact ih hrest hfails

end Loop

/-! ## Intact buffers -/

/-- An intact buffer whose array is not longer than `new` can make it. -/
structure Allocated (b : LogBuffer) : Prop where
  intact : Intact b
  length_lt : b.elasticData.length < 2 ^ 64

theorem length_newChars (n : UInt64) : (newChars n).length = n.toNat := List.length_replicate

theorem allocated_create (capacity : UInt64) : Allocated (create capacity) where
  intact := ⟨UInt64.le_iff_toNat_le.mpr (Nat.zero_le _), (length_newChars capacity).ge⟩
  length_lt := (length_newChars capacity).trans_lt capacity.toNat_lt

namespace Allocated

variable {b : LogBuffer}

theorem resetData (h : Allocated b) : Allocated b.resetData :=
  ⟨⟨UInt64.le_iff_toNat_le.mpr (Nat.zero_le _), h.intact.2⟩, h.length_lt⟩

theorem double_iterate (h : Allocated b) {k : ℕ} (hsize : 0 < k → b.size = 0) :
    Allocated (LogBuffer.double^[k] b) := by
  cases k with
  | zero => exact h
  | succ k =>
    have hempty : (LogBuffer.double^[k + 1] b).size = 0 := by
      rw [size_double_iterate, hsize (Nat.succ_pos k)]
    refine ⟨⟨?_, ?_⟩, ?_⟩
    · rw [hempty, UInt64.le_iff_toNat_le]
      exact Nat.zero_le _
    · rw [Function.iterate_succ_apply']
      exact (length_newChars _).ge
    · rw [Function.iterate_succ_apply']
      exact (length_newChars _).trans_lt (UInt64.toNat_lt _)

end Allocated

/-! ## One call -/

inductive FallibleCall
  /-- The `i`-th request of the call succeeds if `available i`. -/
  | writeRecord (available : ℕ → Bool) (record : WholeRecord)
  | resetData

/-- Whenever the call ends, it has not copied past the end of the array, and leaves an intact
buffer. -/
def Safe (b : LogBuffer) : FallibleCall → Prop
  | .writeRecord available r => ∀ fuel outcome b',
      b.writeRecord available fuel r.toLogRecord = some (outcome, b') →
        outcome ≠ .outOfBounds ∧ Intact b'
  | .resetData => Intact b.resetData

/-- Size and length have a sum below `2 ^ 64`, and a request that fails asks for no more than the
buffer has. -/
def Harmless (b : LogBuffer) : FallibleCall → Prop
  | .writeRecord available r =>
      (r.message ≠ none → b.size.toNat + r.messageLength.toNat < 2 ^ 64) ∧
        ∀ k, Requests available b r.messageLength k → available k = true ∨
          ((double^[k] b).capacity * 2).toNat ≤ (double^[k] b).elasticData.length
  | .resetData => True

section Call

variable {available : ℕ → Bool} {b b' : LogBuffer} {r : WholeRecord} {fuel : ℕ} {outcome : Outcome}

/-- **A harmless call.** It does not copy past the end, and leaves an intact buffer. -/
theorem Allocated.of_writeRecord (h : Allocated b)
    (hharmless : Harmless b (.writeRecord available r))
    (hcall : b.writeRecord available fuel r.toLogRecord = some (outcome, b')) :
    outcome ≠ .outOfBounds ∧ Allocated b' := by
  obtain ⟨hsum, hrequests⟩ := hharmless
  rcases writeRecord_cases hcall with ⟨k, hk, hroom, hcopy⟩ | ⟨rfl, rfl⟩ |
      ⟨rfl, k, hrequest, hfails, rfl⟩
  · -- after `k` doublings there is room, and `PL_MEMCPY` is reached
    have hgrown := h.double_iterate hk
    rw [← size_double_iterate b k] at hsum
    rcases copyData_cases hcopy with ⟨-, rfl, rfl⟩ | ⟨hsome, hover, -⟩ |
        ⟨rfl, hle, hsize, hcapacity, hlength⟩
    · exact ⟨by simp, hgrown⟩
    · have hfits := size_add_le hroom (hsum hsome)
      exact absurd (hfits.trans hgrown.intact.2) (not_le_of_gt hover)
    · refine ⟨by simp, ⟨?_, ?_⟩, ?_⟩
      · rw [hsize, hcapacity, ← UInt64.not_lt, UInt64.add_comm]
        exact hroom
      · rw [hcapacity, hlength]
        exact hgrown.intact.2
      · rw [hlength]
        exact hgrown.length_lt
  · exact ⟨by simp, h⟩
  · -- request `k` has thrown, with `capacity_` doubled once more than the array
    have hgrown := h.double_iterate (k := k) fun _ ↦ hrequest.empty
    refine ⟨by simp, ⟨?_, ?_⟩, hgrown.length_lt⟩
    · change (double^[k] b).size ≤ _
      rw [size_double_iterate, hrequest.empty, UInt64.le_iff_toNat_le]
      exact Nat.zero_le _
    · exact (hrequests k hrequest).resolve_left (Bool.eq_false_iff.mp hfails)

theorem safe_iff_harmless (h : Allocated b) (c : FallibleCall) : Safe b c ↔ Harmless b c := by
  rcases c with ⟨available, r⟩ | _
  · constructor
    · intro hsafe
      refine ⟨fun hsome ↦ ?_, fun k hrequest ↦ ?_⟩
      · by_contra hwrap
        -- with a sum that wraps around the first test already finds room
        have hover : b.writeRecord available 1 r.toLogRecord = some (.outOfBounds, b) :=
          writeRecord_of_wrap 0 h.intact.1 h.length_lt hsome (not_lt.mp hwrap)
        exact (hsafe 1 _ _ hover).1 rfl
      · rcases Bool.eq_false_or_eq_true (available k) with hgranted | hfails
        · exact .inl hgranted
        · have hcall : b.writeRecord available (k + 1) r.toLogRecord =
              some (.badAlloc, (double^[k] b).doubleFailed) := by
            rw [writeRecord, writeData, makeRoom_of_requests hrequest hfails, Option.map_some]
          exact .inr (hsafe (k + 1) _ _ hcall).2.2
    · intro hharmless fuel outcome b' hcall
      obtain ⟨hinside, hleft⟩ := h.of_writeRecord hharmless hcall
      exact ⟨hinside, hleft.intact⟩
  · exact iff_of_true h.resetData.intact trivial

end Call

/-! ## Sequences of calls -/

/-- A call that throws leaves its buffer behind; one that aborts or copies past the end of the
array ends the sequence. -/
def fallibleStep (fuel : ℕ) (b : LogBuffer) : FallibleCall → Option LogBuffer
  | .writeRecord available r =>
    match b.writeRecord available fuel r.toLogRecord with
    | some (.returned _, b') => some b'
    | some (.badAlloc, b') => some b'
    | _ => none
  | .resetData => some b.resetData

def fallibleMachine (fuel : ℕ) : Machine LogBuffer FallibleCall := ⟨fallibleStep fuel⟩

theorem preservesUnder_harmless (fuel : ℕ) :
    (fallibleMachine fuel).PreservesUnder Harmless Allocated := by
  intro b b' c h hharmless hstep
  change fallibleStep fuel b c = some b' at hstep
  rcases c with ⟨available, r⟩ | _
  · rw [fallibleStep] at hstep
    split at hstep
    · next hcall =>
      obtain rfl := Option.some_inj.mp hstep
      exact (h.of_writeRecord hharmless hcall).2
    · next hcall =>
      obtain rfl := Option.some_inj.mp hstep
      exact (h.of_writeRecord hharmless hcall).2
    · exact absurd hstep nofun
  · obtain rfl := Option.some_inj.mp hstep
    exact h.resetData

/-- **What a failed growth leaves behind.** In a sequence of calls on a new buffer every call is
safe exactly if every call is harmless. -/
theorem safe_along_iff (fuel : ℕ) (capacity : UInt64) (calls : List FallibleCall) :
    (fallibleMachine fuel).Along Safe (create capacity) calls ↔
      (fallibleMachine fuel).Along Harmless (create capacity) calls :=
  (Machine.along_congr (preservesUnder_harmless fuel)
    (fun _ c h ↦ (safe_iff_harmless h c).symm) (allocated_create capacity)).symm

/-- 17 bytes. -/
def seventeen : WholeRecord := ⟨⟨some (List.replicate 17 0), 17⟩, by simp⟩

/-- The first growth of a buffer of 16 bytes fails; the same message is then copied past the end.
-/
theorem failed_growth_overruns :
    ¬(fallibleMachine 2).Along Safe (create 16) [.writeRecord (fun _ ↦ false) seventeen] ∧
      ∃ b, (fallibleMachine 2).run (create 16) [.writeRecord (fun _ ↦ false) seventeen] = some b ∧
        b.size = 0 ∧ b.capacity = 32 ∧ b.elasticData.length = 16 ∧
        b.writeRecord (fun _ ↦ true) 2 seventeen.toLogRecord = some (.outOfBounds, b) := by
  refine ⟨fun h ↦ ?_, _, rfl, rfl, rfl, rfl, rfl⟩
  have hintact := (h.1 1 _ _ rfl).2.2
  exact absurd hintact (by decide)

end LogBuffer

end FulgurLogging
