import FulgurLogging.LogBuffer.Content
import FulgurLogging.LogBuffer.FailedAllocation

/-!
# The accessors of a log buffer, and a full buffer

`SetSize` asserts that the size is below the capacity, while `WriteData` fills a buffer up to its
last byte. A buffer's own size is therefore not one it accepts, once a message has ended exactly at
the capacity.

Buffers have any capacity here, so that a sum of size and length may wrap around. Such a message is
copied past the end of the array, and there is no next state.
-/

namespace FulgurLogging

open Transition

namespace LogBuffer

def getSize (b : LogBuffer) : UInt64 := b.size

/-- `SetSize`, `none` where the assertion fails. -/
def setSize (b : LogBuffer) (size : UInt64) : Option LogBuffer :=
  if size < b.capacity then some { b with size } else none

theorem eq_of_setSize {b b' : LogBuffer} {size : UInt64} (h : b.setSize size = some b') :
    size < b.capacity ∧ b' = { b with size } := by
  rw [setSize, Option.ite_none_right_eq_some, Option.some_inj] at h
  exact ⟨h.1, h.2.symm⟩

def setMaxLogId (b : LogBuffer) (newMax : UInt64) : LogBuffer := { b with maxLogId := newMax }

def getMaxLogId (b : LogBuffer) : UInt64 := b.maxLogId

/-! ## Sequences of changes -/

inductive Change
  | writeRecord (m : Message)
  | setMaxLogId (newMax : UInt64)
  | setSize (size : UInt64)
  | resetData

def change (fuel : ℕ) (b : LogBuffer) : Change → Option LogBuffer
  | .writeRecord m =>
    match b.writeRecord allocates fuel m.record with
    | some (.returned _, b') => some b'
    | _ => none
  | .setMaxLogId newMax => some (b.setMaxLogId newMax)
  | .setSize size => b.setSize size
  | .resetData => some b.resetData

def changes (fuel : ℕ) : Machine LogBuffer Change := ⟨change fuel⟩

/-! ## The size of a buffer as an argument of `SetSize` -/

/-- The size of the buffer can be saved and restored, at once or after a reset. -/
def Restorable (b : LogBuffer) : Prop :=
  b.setSize b.getSize = some b ∧ b.resetData.setSize b.getSize = some b

theorem restorable_iff {b : LogBuffer} : Restorable b ↔ b.size < b.capacity := by
  constructor
  · rintro ⟨h, -⟩
    rw [setSize] at h
    split_ifs at h with hlt
    exact hlt
  · intro h
    exact ⟨if_pos h, if_pos h⟩

/-- The array is as long as the capacity says. -/
def FullLength (b : LogBuffer) : Prop := b.elasticData.length = b.capacity.toNat

theorem fullLength_create (capacity : UInt64) : FullLength (create capacity) :=
  List.length_replicate

section Change

variable {b b' : LogBuffer} {m : Message} {fuel : ℕ}

theorem change_of_returned {success : Bool}
    (h : b.writeRecord allocates fuel m.record = some (.returned success, b')) :
    change fuel b (.writeRecord m) = some b' := by
  rw [change, h]

theorem exists_returned (h : change fuel b (.writeRecord m) = some b') :
    ∃ success, b.writeRecord allocates fuel m.record = some (.returned success, b') := by
  rw [change] at h
  split at h
  · next success _ hcall =>
    obtain rfl := Option.some_inj.mp h
    exact ⟨success, hcall⟩
  · exact absurd h nofun

/-- A new array is allocated for every new capacity. -/
theorem FullLength.change (h : FullLength b) {c : Change} (hstep : change fuel b c = some b') :
    FullLength b' := by
  cases c with
  | writeRecord m =>
    obtain ⟨success, hcall⟩ := exists_returned hstep
    rcases writeRecord_cases hcall with ⟨k, -, -, hcopy⟩ | ⟨-, rfl⟩ | ⟨hthrown, -⟩
    · rcases copyData_cases (r := m.wholeRecord) hcopy with ⟨-, hfalse, -⟩ | ⟨-, -, hfalse, -⟩ |
          ⟨-, -, -, hcapacity, hlength⟩
      · exact absurd hfalse (by simp)
      · exact absurd hfalse (by simp)
      · rw [FullLength, hlength, hcapacity]
        exact length_double_iterate h k
    · exact h
    · exact absurd hthrown (by simp)
  | setMaxLogId newMax =>
    obtain rfl := Option.some_inj.mp hstep
    exact h
  | setSize size =>
    obtain ⟨-, rfl⟩ := eq_of_setSize hstep
    exact h
  | resetData =>
    obtain rfl := Option.some_inj.mp hstep
    exact h

/-! ## Filling a buffer -/

/-- A write that does not end at the last byte of the buffer, as it is or, while it is empty, as it
grows. -/
def Unfilled (b : LogBuffer) : Change → Prop
  | .writeRecord m =>
    if b.size = 0 then ∀ k, m.bytes.length ≠ b.capacity.toNat * 2 ^ k
    else b.size.toNat + m.bytes.length ≠ b.capacity.toNat
  | _ => True

/-- A message that fits leaves a size that can be restored, unless it ends at the last byte. -/
theorem restorable_stored_iff (hfits : b.size.toNat + m.bytes.length ≤ b.capacity.toNat) :
    Restorable (b.stored m.bytes m.record.messageLength) ↔
      b.size.toNat + m.bytes.length ≠ b.capacity.toNat := by
  rw [restorable_iff, UInt64.lt_iff_toNat_lt, size_stored hfits]
  exact ⟨Nat.ne_of_lt, Nat.lt_of_le_of_ne hfits⟩

theorem restorable_write_iff_of_empty (hlength : FullLength b) (hpos : 0 < b.capacity.toNat)
    (hsize : b.size = 0) (hfuel : loopBound ≤ fuel) :
    (∀ b', change fuel b (.writeRecord m) = some b' → Restorable b') ↔
      ∀ k, m.bytes.length ≠ b.capacity.toNat * 2 ^ k := by
  have hstored := restorable_stored_iff (grown_fits hpos hsize m)
  rw [toNat_grown_capacity hpos m, grown, size_double_iterate, hsize, UInt64.toNat_zero,
    Nat.zero_add, ← grown] at hstored
  rw [change_of_returned (writeRecord_of_empty hlength hpos hsize hfuel), ← not_exists,
    ← Doubling.eq_mul_two_pow_count_iff hpos]
  simp only [Option.some.injEq, forall_eq']
  exact hstored

theorem restorable_write_iff_of_size_ne (hlength : FullLength b) (h : Restorable b)
    (hsize : b.size ≠ 0) (hfuel : loopBound ≤ fuel) :
    (∀ b', change fuel b (.writeRecord m) = some b' → Restorable b') ↔
      b.size.toNat + m.bytes.length ≠ b.capacity.toNat := by
  rcases le_or_gt (b.size.toNat + m.bytes.length) b.capacity.toNat with hfits | hfull
  · rw [change_of_returned (writeRecord_of_le hlength hfits hfuel)]
    simp only [Option.some.injEq, forall_eq']
    exact restorable_stored_iff hfits
  · -- a buffer that is not empty does not grow
    refine iff_of_true (fun b' hstep ↦ ?_) (Nat.ne_of_gt hfull)
    obtain ⟨success, hcall⟩ := exists_returned hstep
    rcases lt_or_ge (b.size.toNat + m.bytes.length) (2 ^ 64) with hlt | hwrap
    · rw [writeRecord_of_full hsize hfull hlt hfuel] at hcall
      obtain ⟨-, rfl⟩ := hcall
      exact h
    · -- the message is copied past the end of the array
      obtain ⟨n, rfl⟩ := exists_fuel hfuel
      have hover : b.writeRecord allocates (n + 1) m.wholeRecord.toLogRecord =
          some (.outOfBounds, b) := by
        refine writeRecord_of_wrap n (UInt64.le_of_lt (restorable_iff.mp h)) ?_
          (Option.some_ne_none m.bytes) ?_
        · exact hlength.trans_lt b.capacity.toNat_lt
        · rwa [← m.toNat_messageLength] at hwrap
      exact absurd (hcall.symm.trans hover) nofun

theorem restorable_change_iff (hlength : FullLength b) (h : Restorable b)
    (hfuel : loopBound ≤ fuel) (c : Change) :
    (∀ b', change fuel b c = some b' → Restorable b') ↔ Unfilled b c := by
  have hsize_lt := restorable_iff.mp h
  have hpos : 0 < b.capacity.toNat := Nat.zero_lt_of_lt (UInt64.lt_iff_toNat_lt.mp hsize_lt)
  cases c with
  | writeRecord m =>
    rw [Unfilled]
    split_ifs with hsize
    · exact restorable_write_iff_of_empty hlength hpos hsize hfuel
    · exact restorable_write_iff_of_size_ne hlength h hsize hfuel
  | setMaxLogId newMax =>
    refine iff_of_true (fun b' hstep ↦ ?_) trivial
    obtain rfl := Option.some_inj.mp hstep
    exact restorable_iff.mpr hsize_lt
  | setSize size =>
    refine iff_of_true (fun b' hstep ↦ ?_) trivial
    obtain ⟨hsize, rfl⟩ := eq_of_setSize hstep
    exact restorable_iff.mpr hsize
  | resetData =>
    refine iff_of_true (fun b' hstep ↦ ?_) trivial
    obtain rfl := Option.some_inj.mp hstep
    exact restorable_iff.mpr (UInt64.lt_iff_toNat_lt.mpr hpos)

end Change

theorem restorable_create {capacity : UInt64} (h : 1 ≤ capacity) : Restorable (create capacity) :=
  restorable_iff.mpr (UInt64.lt_iff_toNat_lt.mpr (UInt64.le_iff_toNat_le.mp h))

/-- **The two bounds of the size.** In all states that a sequence of changes passes through, the
size is one that `SetSize` accepts, exactly if no write fills the buffer to its last byte. -/
theorem restorable_iff_unfilled {fuel : ℕ} (hfuel : loopBound ≤ fuel) {capacity : UInt64}
    (hcapacity : 1 ≤ capacity) (cs : List Change) :
    (∀ pre b, pre <+: cs → (changes fuel).run (create capacity) pre = some b → Restorable b) ↔
      (changes fuel).Along Unfilled (create capacity) cs := by
  have hcreate := restorable_create hcapacity
  rw [Machine.forall_prefix_iff, and_iff_right hcreate]
  refine Machine.along_congr (I := fun b ↦ FullLength b ∧ Restorable b) ?_ ?_
    ⟨fullLength_create capacity, hcreate⟩
  · rintro b b' c ⟨hlength, -⟩ hall hstep
    exact ⟨hlength.change hstep, hall b' hstep⟩
  · rintro b c ⟨hlength, h⟩
    exact restorable_change_iff hlength h hfuel c

/-- A message of one byte. -/
def oneByte : Message := ⟨[0], by decide, by decide⟩

/-- Two writes of one byte to a buffer of three. -/
theorem restorable_twoOfThree :
    1 ≤ (3 : UInt64) ∧ ∀ pre b, pre <+: [.writeRecord oneByte, .writeRecord oneByte] →
      (changes loopBound).run (create 3) pre = some b → Restorable b := by
  refine ⟨by decide, (restorable_iff_unfilled le_rfl (by decide) _).mpr ⟨?_, fun b hb ↦ ?_⟩⟩
  · intro k hk
    have hk' : 1 = 3 * 2 ^ k := hk
    have hpow := Nat.two_pow_pos k
    omega
  · obtain rfl := Option.some_inj.mp hb
    have hne : 1 + 1 ≠ 3 := by decide
    exact ⟨hne, fun _ _ ↦ trivial⟩

/-- A message of one byte fills a buffer of one byte, and `SetSize(GetSize())` aborts. -/
theorem full_not_restorable :
    ∃ b, (changes loopBound).run (create 1) [.writeRecord oneByte] = some b ∧
      b.getSize = 1 ∧ b.capacity = 1 ∧ b.setSize b.getSize = none :=
  ⟨_, rfl, rfl, rfl, rfl⟩

end LogBuffer

end FulgurLogging
