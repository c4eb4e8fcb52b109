import FulgurLogging.Lib.Doubling
import FulgurLogging.Lib.Storage

/-!
# Writing into a log buffer

`WriteData` copies a message behind the bytes already in the buffer. While the message does not
fit, the loop doubles the capacity of an empty buffer, without copying anything, and gives up on
one that is not empty. The test adds two `size_t` values and wraps around.

The loop is run with fuel. Which requests of a call for `new char[capacity_]` succeed is a
parameter; a `bad_alloc` leaves the function after `capacity_` has been doubled and before
`elastic_data_` is replaced. A cell of the array that was never written is `none`.
-/

namespace FulgurLogging

/-- A `LogRecord`, as far as `WriteRecord` reads it. A null `message` is `none`. -/
structure LogRecord where
  message : Option (List UInt8)
  messageLength : UInt64

/-- A record whose message, if there is one, is as long as it says. -/
structure WholeRecord extends LogRecord where
  whole : ∀ bytes ∈ message, bytes.length = messageLength.toNat

structure LogBuffer where
  size : UInt64
  capacity : UInt64
  elasticData : List (Option UInt8)
  maxLogId : UInt64

namespace LogBuffer

/-- `LOG_BUFFER_LEN`, the default of `log_buffer_capacity_`. -/
def logBufferLen : UInt64 := 128 * 1024

/-- `new char[n]`. -/
def newChars (n : UInt64) : List (Option UInt8) := List.replicate n.toNat none

/-- A new buffer. -/
def create (capacity : UInt64) : LogBuffer := ⟨0, capacity, newChars capacity, 0⟩

def resetData (b : LogBuffer) : LogBuffer := { b with size := 0 }

/-- How the loop of `WriteData` ends. -/
inductive Exit
  | room | refused | badAlloc
deriving DecidableEq

/-- How a call of `WriteRecord` ends. The last one is a copy that leaves `elastic_data_`. -/
inductive Outcome
  | returned (success : Bool) | badAlloc | assertFailed | outOfBounds
deriving DecidableEq

/-- The body of the loop for an empty buffer, when `new char[capacity_]` succeeds. -/
def double (b : LogBuffer) : LogBuffer :=
  { b with capacity := b.capacity * 2, elasticData := newChars (b.capacity * 2) }

/-- The loop of `WriteData`, `none` when the fuel runs out. Its `i`-th request succeeds if
`available i`. -/
def makeRoom (available : ℕ → Bool) (len : UInt64) : ℕ → LogBuffer → Option (Exit × LogBuffer)
  | 0, _ => none
  | fuel + 1, b =>
    if len + b.size > b.capacity then
      if b.size = 0 then
        if available 0 then makeRoom (fun i ↦ available (i + 1)) len fuel b.double
        else some (.badAlloc, { b with capacity := b.capacity * 2 })
      else some (.refused, b)
    else some (.room, b)

/-- What the loop makes of an empty buffer: doubled until `len` bytes fit. -/
def grown (b : LogBuffer) (len : ℕ) : LogBuffer := double^[Doubling.count b.capacity.toNat len] b

/-- The bytes go behind those already there. -/
def stored (b : LogBuffer) (bytes : List UInt8) (len : UInt64) : LogBuffer :=
  { b with
    elasticData := Storage.overwrite b.elasticData b.size.toNat (bytes.map some)
    size := b.size + len }

/-- `WriteData` behind its loop. -/
def copyData (b : LogBuffer) (data : Option (List UInt8)) (len : UInt64) : Outcome × LogBuffer :=
  match data with
  | none => (.assertFailed, b)
  | some bytes =>
    if len = 0 then (.assertFailed, b)
    else
      match Storage.copy b.elasticData b.size.toNat ((bytes.take len.toNat).map some) with
      | none => (.outOfBounds, b)
      | some elasticData => (.returned true, { b with elasticData, size := b.size + len })

def writeData (available : ℕ → Bool) (fuel : ℕ) (b : LogBuffer) (data : Option (List UInt8))
    (len : UInt64) : Option (Outcome × LogBuffer) :=
  (makeRoom available len fuel b).map fun
    | (.room, b) => b.copyData data len
    | (.refused, b) => (.returned false, b)
    | (.badAlloc, b) => (.badAlloc, b)

def writeRecord (available : ℕ → Bool) (fuel : ℕ) (b : LogBuffer) (record : LogRecord) :
    Option (Outcome × LogBuffer) :=
  writeData available fuel b record.message record.messageLength

/-! ## The loop -/

section Loop

variable {available : ℕ → Bool} {b : LogBuffer} {len : UInt64} {fuel : ℕ}

/-- The message fits. -/
theorem makeRoom_of_le (h : b.size.toNat + len.toNat ≤ b.capacity.toNat) :
    makeRoom available len (fuel + 1) b = some (.room, b) := by
  rw [makeRoom, if_neg]
  have hlt : b.size.toNat + len.toNat < 2 ^ 64 := h.trans_lt b.capacity.toNat_lt
  rw [gt_iff_lt, UInt64.not_lt, UInt64.le_iff_toNat_le, UInt64.toNat_add, Nat.add_comm,
    Nat.mod_eq_of_lt hlt]
  exact h

/-- The message does not fit behind what is already there. -/
theorem makeRoom_of_size_ne (hsize : b.size ≠ 0)
    (hgt : b.capacity.toNat < b.size.toNat + len.toNat)
    (hlt : b.size.toNat + len.toNat < 2 ^ 64) :
    makeRoom available len (fuel + 1) b = some (.refused, b) := by
  rw [makeRoom, if_pos, if_neg hsize]
  rw [gt_iff_lt, UInt64.lt_iff_toNat_lt, UInt64.toNat_add, Nat.add_comm len.toNat,
    Nat.mod_eq_of_lt hlt]
  exact hgt

theorem toNat_double_capacity (h : b.capacity.toNat * 2 < 2 ^ 64) :
    b.double.capacity.toNat = b.capacity.toNat * 2 := by
  rw [double, UInt64.toNat_mul]
  exact Nat.mod_eq_of_lt h

/-- An empty buffer is doubled until the message fits. -/
theorem makeRoom_of_empty (havailable : ∀ i, available i = true) (hlen : len.toNat < 2 ^ 63)
    (hsize : b.size = 0) (hpos : 0 < b.capacity.toNat)
    (hfuel : Doubling.count b.capacity.toNat len.toNat < fuel) :
    makeRoom available len fuel b = some (.room, b.grown len.toNat) := by
  induction fuel generalizing available b with
  | zero => exact absurd hfuel (Nat.not_lt_zero _)
  | succ fuel ih =>
    rcases le_or_gt len.toNat b.capacity.toNat with hle | hgt
    · rw [makeRoom_of_le, grown, (Doubling.count_eq_zero_iff hpos).mpr hle, Function.iterate_zero,
        id]
      rwa [hsize, UInt64.toNat_zero, Nat.zero_add]
    · have hdouble : b.double.capacity.toNat = b.capacity.toNat * 2 :=
        toNat_double_capacity (by omega)
      rw [Doubling.count_of_lt hpos hgt, ← hdouble] at hfuel
      rw [makeRoom, if_pos, if_pos hsize, if_pos (havailable _), grown,
        Doubling.count_of_lt hpos hgt, Function.iterate_succ_apply, ← hdouble]
      · exact ih (fun i ↦ havailable (i + 1)) hsize (by omega) (Nat.lt_of_succ_lt_succ hfuel)
      · rw [hsize, UInt64.add_zero, gt_iff_lt, UInt64.lt_iff_toNat_lt]
        exact hgt

@[simp] theorem size_double_iterate (b : LogBuffer) (k : ℕ) : (double^[k] b).size = b.size := by
  induction k with
  | zero => rfl
  | succ k ih =>
    rw [Function.iterate_succ_apply']
    exact ih

theorem toNat_double_iterate_capacity {k : ℕ} (h : b.capacity.toNat * 2 ^ k < 2 ^ 64) :
    (double^[k] b).capacity.toNat = b.capacity.toNat * 2 ^ k := by
  induction k with
  | zero => rw [Function.iterate_zero, id, pow_zero, mul_one]
  | succ k ih =>
    rw [pow_succ, ← mul_assoc] at h ⊢
    have hk := ih (by omega)
    rw [← hk] at h ⊢
    rw [Function.iterate_succ_apply', toNat_double_capacity h]

/-- A buffer whose array has the length of its capacity keeps one. -/
theorem length_double_iterate (h : b.elasticData.length = b.capacity.toNat) (k : ℕ) :
    (double^[k] b).elasticData.length = (double^[k] b).capacity.toNat := by
  cases k with
  | zero => exact h
  | succ k =>
    rw [Function.iterate_succ_apply']
    exact List.length_replicate

end Loop

/-! ## The copy -/

section Copy

variable {b : LogBuffer} {bytes : List UInt8}

theorem copyData_of_pos (hpos : 0 < bytes.length) (hlt : bytes.length < 2 ^ 64) :
    b.copyData (some bytes) (.ofNat bytes.length) =
      match Storage.copy b.elasticData b.size.toNat (bytes.map some) with
      | none => (.outOfBounds, b)
      | some elasticData =>
        (.returned true, { b with elasticData, size := b.size + .ofNat bytes.length }) := by
  have hlen : (UInt64.ofNat bytes.length).toNat = bytes.length := UInt64.toNat_ofNat_of_lt' hlt
  have hne : UInt64.ofNat bytes.length ≠ 0 := by
    intro h0
    rw [h0] at hlen
    exact Nat.ne_of_lt hpos hlen
  simp only [copyData, if_neg hne, hlen, List.take_length]

theorem copyData_of_le (hpos : 0 < bytes.length) (hlt : bytes.length < 2 ^ 64)
    (hroom : b.size.toNat + bytes.length ≤ b.elasticData.length) :
    b.copyData (some bytes) (.ofNat bytes.length) =
      (.returned true, b.stored bytes (.ofNat bytes.length)) := by
  have hmap : (bytes.map some).length = bytes.length := List.length_map _
  rw [← hmap] at hroom
  rw [copyData_of_pos hpos hlt, Storage.copy_of_le hroom]
  rfl

theorem copyData_of_lt (hpos : 0 < bytes.length) (hlt : bytes.length < 2 ^ 64)
    (hover : b.elasticData.length < b.size.toNat + bytes.length) :
    b.copyData (some bytes) (.ofNat bytes.length) = (.outOfBounds, b) := by
  have hmap : (bytes.map some).length = bytes.length := List.length_map _
  rw [← hmap] at hover
  rw [copyData_of_pos hpos hlt, Storage.copy_of_lt hover]

end Copy

/-! ## Whole records -/

section WholeRecord

variable {available : ℕ → Bool} {b b' : LogBuffer} {r : WholeRecord} {outcome : Outcome}

/-- The copy of a whole record behind the loop. -/
theorem copyData_cases (h : b.copyData r.message r.messageLength = (outcome, b')) :
    ((r.message = none ∨ r.messageLength = 0) ∧ outcome = .assertFailed ∧ b' = b) ∨
      (r.message ≠ none ∧ b.elasticData.length < b.size.toNat + r.messageLength.toNat ∧
        outcome = .outOfBounds ∧ b' = b) ∨
      (outcome = .returned true ∧ b.size.toNat + r.messageLength.toNat ≤ b.elasticData.length ∧
        b'.size = b.size + r.messageLength ∧ b'.capacity = b.capacity ∧
        b'.elasticData.length = b.elasticData.length) := by
  cases hmessage : r.message with
  | none =>
    rw [hmessage] at h
    obtain ⟨rfl, rfl⟩ := h
    exact .inl ⟨.inl rfl, rfl, rfl⟩
  | some bytes =>
    have hlen : ((bytes.take r.messageLength.toNat).map some).length = r.messageLength.toNat := by
      rw [← r.whole bytes hmessage, List.take_length, List.length_map]
    rw [hmessage, copyData] at h
    split_ifs at h with hzero
    · obtain ⟨rfl, rfl⟩ := h
      exact .inl ⟨.inr hzero, rfl, rfl⟩
    · rcases le_or_gt (b.size.toNat + r.messageLength.toNat) b.elasticData.length with hle | hgt
      · rw [← hlen] at hle
        rw [Storage.copy_of_le hle] at h
        obtain ⟨rfl, rfl⟩ := h
        exact .inr (.inr ⟨rfl, hlen ▸ hle, rfl, rfl, Storage.length_overwrite hle⟩)
      · rw [← hlen] at hgt
        rw [Storage.copy_of_lt hgt] at h
        obtain ⟨rfl, rfl⟩ := h
        exact .inr (.inl ⟨Option.some_ne_none bytes, hlen ▸ hgt, rfl, rfl⟩)

/-- A loop that ends with room leaves as much room as the test says, when the sum does not wrap
around. -/
theorem size_add_le (h : ¬r.messageLength + b.size > b.capacity)
    (hlt : b.size.toNat + r.messageLength.toNat < 2 ^ 64) :
    b.size.toNat + r.messageLength.toNat ≤ b.capacity.toNat := by
  rwa [gt_iff_lt, UInt64.not_lt, UInt64.le_iff_toNat_le, UInt64.toNat_add, Nat.add_comm,
    Nat.mod_eq_of_lt hlt] at h

/-- A message that wraps the sum around passes the test of the loop, and is copied past the end. -/
theorem writeRecord_of_wrap (fuel : ℕ) (hle : b.size ≤ b.capacity)
    (hlength : b.elasticData.length < 2 ^ 64) (hsome : r.message ≠ none)
    (hwrap : 2 ^ 64 ≤ b.size.toNat + r.messageLength.toNat) :
    b.writeRecord available (fuel + 1) r.toLogRecord = some (.outOfBounds, b) := by
  have hsize := b.size.toNat_lt
  have hlen := r.messageLength.toNat_lt
  have hroom : ¬r.messageLength + b.size > b.capacity := by
    rw [UInt64.le_iff_toNat_le] at hle
    rw [gt_iff_lt, UInt64.lt_iff_toNat_lt, UInt64.toNat_add]
    omega
  rw [writeRecord, writeData, makeRoom, if_neg hroom, Option.map_some]
  refine congrArg some ?_
  change b.copyData r.message r.messageLength = _
  rcases hcopy : b.copyData r.message r.messageLength with ⟨outcome, b'⟩
  rcases copyData_cases hcopy with ⟨hnone | hzero, -⟩ | ⟨-, -, rfl, rfl⟩ | ⟨-, hfits, -⟩
  · exact absurd hnone hsome
  · rw [hzero, UInt64.toNat_zero, Nat.add_zero] at hwrap
    exact absurd hsize (not_lt_of_ge hwrap)
  · rfl
  · exact absurd (hfits.trans_lt hlength) (not_lt_of_ge hwrap)

end WholeRecord

end LogBuffer

end FulgurLogging
