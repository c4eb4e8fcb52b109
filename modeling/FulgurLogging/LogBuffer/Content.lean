import FulgurLogging.Lib.Machine
import FulgurLogging.LogBuffer.WriteData

/-!
# A log buffer holds what it accepted

The capacity of a buffer that starts with the default one stays a power of two below `2 ^ 64`,
since a message is shorter than `2 ^ 63` and the loop stops at the first capacity that fits. The
size is never larger, so that the test of `WriteData` does not wrap around and the copy stays
inside the array. Doubling throws the array away, and only happens while there is nothing in it.
-/

namespace FulgurLogging

open Transition

namespace LogBuffer

/-- A message that a record can carry. -/
structure Message where
  bytes : List UInt8
  pos : 0 < bytes.length
  lt : bytes.length < 2 ^ 63

/-- The record with this message. -/
def Message.record (m : Message) : LogRecord := ⟨some m.bytes, .ofNat m.bytes.length⟩

theorem Message.toNat_messageLength (m : Message) :
    m.record.messageLength.toNat = m.bytes.length :=
  UInt64.toNat_ofNat_of_lt' (m.lt.trans (by decide))

/-- The record with this message, as one that is whole. -/
def Message.wholeRecord (m : Message) : WholeRecord :=
  ⟨m.record, fun bytes hbytes ↦ by
    rw [← Option.some_inj.mp hbytes]
    exact m.toNat_messageLength.symm⟩

/-- Every `new` succeeds. -/
def allocates : ℕ → Bool := fun _ ↦ true

/-- Enough for every run of the loop. -/
def loopBound : ℕ := 64

/-- The first `GetSize()` bytes of `GetData()`. -/
def content (b : LogBuffer) : List (Option UInt8) := b.elasticData.take b.size.toNat

theorem content_of_size_eq_zero {b : LogBuffer} (h : b.size = 0) : b.content = [] := by
  rw [content, h, UInt64.toNat_zero, List.take_zero]

/-! ## One call -/

section Call

variable {b b' : LogBuffer} {m : Message} {fuel : ℕ}

/-- The capacity does not wrap around while the loop looks for less than `2 ^ 63` bytes. -/
theorem toNat_grown_capacity (hpos : 0 < b.capacity.toNat) (m : Message) :
    (b.grown m.bytes.length).capacity.toNat =
      b.capacity.toNat * 2 ^ Doubling.count b.capacity.toNat m.bytes.length := by
  refine toNat_double_iterate_capacity ?_
  cases hk : Doubling.count b.capacity.toNat m.bytes.length with
  | zero =>
    rw [pow_zero, mul_one]
    exact b.capacity.toNat_lt
  | succ k =>
    -- the capacity before the last doubling was too small
    have hsmall : b.capacity.toNat * 2 ^ k < m.bytes.length := by
      rw [← not_le, ← Doubling.count_le_iff hpos, hk]
      exact Nat.not_succ_le_self k
    have hm := m.lt
    rw [pow_succ, ← mul_assoc]
    omega

theorem grown_fits (hpos : 0 < b.capacity.toNat) (hsize : b.size = 0) (m : Message) :
    (b.grown m.bytes.length).size.toNat + m.bytes.length ≤
      (b.grown m.bytes.length).capacity.toNat := by
  rw [toNat_grown_capacity hpos, grown, size_double_iterate, hsize, UInt64.toNat_zero, Nat.zero_add]
  exact Doubling.le_mul_two_pow_count hpos

/-- A call whose loop ends with room for the message. -/
theorem writeRecord_of_makeRoom (hlength : b'.elasticData.length = b'.capacity.toNat)
    (hloop : makeRoom allocates m.record.messageLength fuel b = some (.room, b'))
    (hfits : b'.size.toNat + m.bytes.length ≤ b'.capacity.toNat) :
    b.writeRecord allocates fuel m.record =
      some (.returned true, b'.stored m.bytes m.record.messageLength) := by
  rw [writeRecord, writeData, hloop, Option.map_some]
  exact congrArg some
    (copyData_of_le m.pos (m.lt.trans (by decide)) (hfits.trans_eq hlength.symm))

theorem exists_fuel (hfuel : loopBound ≤ fuel) : ∃ n, fuel = n + 1 :=
  Nat.exists_eq_succ_of_ne_zero (Nat.ne_of_gt (Nat.lt_of_lt_of_le (by decide) hfuel))

theorem writeRecord_of_le (hlength : b.elasticData.length = b.capacity.toNat)
    (hfits : b.size.toNat + m.bytes.length ≤ b.capacity.toNat) (hfuel : loopBound ≤ fuel) :
    b.writeRecord allocates fuel m.record =
      some (.returned true, b.stored m.bytes m.record.messageLength) := by
  refine writeRecord_of_makeRoom hlength ?_ hfits
  obtain ⟨n, rfl⟩ := exists_fuel hfuel
  exact makeRoom_of_le (by rwa [m.toNat_messageLength])

theorem writeRecord_of_empty (hlength : b.elasticData.length = b.capacity.toNat)
    (hpos : 0 < b.capacity.toNat) (hsize : b.size = 0) (hfuel : loopBound ≤ fuel) :
    b.writeRecord allocates fuel m.record =
      some (.returned true, (b.grown m.bytes.length).stored m.bytes m.record.messageLength) := by
  refine writeRecord_of_makeRoom (length_double_iterate hlength _) ?_ (grown_fits hpos hsize m)
  have hcount : Doubling.count b.capacity.toNat m.bytes.length ≤ 63 := by
    rw [Doubling.count_le_iff hpos]
    exact m.lt.le.trans (Nat.le_mul_of_pos_left _ hpos)
  rw [← m.toNat_messageLength] at hcount ⊢
  refine makeRoom_of_empty (fun _ ↦ rfl) ?_ hsize hpos (Nat.lt_of_le_of_lt hcount hfuel)
  rw [m.toNat_messageLength]
  exact m.lt

theorem writeRecord_of_full (hsize : b.size ≠ 0)
    (hfull : b.capacity.toNat < b.size.toNat + m.bytes.length)
    (hlt : b.size.toNat + m.bytes.length < 2 ^ 64) (hfuel : loopBound ≤ fuel) :
    b.writeRecord allocates fuel m.record = some (.returned false, b) := by
  obtain ⟨n, rfl⟩ := exists_fuel hfuel
  rw [writeRecord, writeData, makeRoom_of_size_ne hsize, Option.map_some]
  · rwa [m.toNat_messageLength]
  · rwa [m.toNat_messageLength]

theorem size_stored (hfits : b.size.toNat + m.bytes.length ≤ b.capacity.toNat) :
    (b.stored m.bytes m.record.messageLength).size.toNat = b.size.toNat + m.bytes.length := by
  change (b.size + m.record.messageLength).toNat = _
  rw [UInt64.toNat_add, m.toNat_messageLength]
  exact Nat.mod_eq_of_lt (hfits.trans_lt b.capacity.toNat_lt)

end Call

/-! ## Sound buffers -/

/-- The array has the length of the capacity, which is a power of two and not below the size. -/
structure Sound (b : LogBuffer) : Prop where
  capacity : ∃ j ≤ 63, b.capacity.toNat = 2 ^ j
  length : b.elasticData.length = b.capacity.toNat
  size_le : b.size.toNat ≤ b.capacity.toNat

theorem sound_create : Sound (create logBufferLen) :=
  ⟨⟨17, by decide, rfl⟩, List.length_replicate, Nat.zero_le _⟩

/-- What `WriteRecord` makes of a message: the result and the buffer left behind. -/
structure Writes (b : LogBuffer) (m : Message) (success : Bool) (b' : LogBuffer) : Prop where
  /-- The call terminates. -/
  returns : ∀ fuel, loopBound ≤ fuel →
    b.writeRecord allocates fuel m.record = some (.returned success, b')
  success_iff : success = true ↔
    b.size = 0 ∨ b.size.toNat + m.bytes.length ≤ b.capacity.toNat
  /-- A buffer that refuses a message is left as it was. -/
  refused : success = false → b' = b
  /-- An empty buffer that is too small grows to the next capacity that fits. -/
  grows : b.size = 0 → b.capacity.toNat < m.bytes.length →
    ∃ k, IsLeast {k | m.bytes.length ≤ b.capacity.toNat * 2 ^ k} k ∧
      b'.capacity.toNat = b.capacity.toNat * 2 ^ k
  /-- Any other buffer keeps its capacity. -/
  keeps : ¬(b.size = 0 ∧ b.capacity.toNat < m.bytes.length) → b'.capacity = b.capacity

namespace Sound

variable {b : LogBuffer} {m : Message} {fuel : ℕ}

theorem capacity_pos (h : Sound b) : 0 < b.capacity.toNat := by
  obtain ⟨j, -, hj⟩ := h.capacity
  rw [hj]
  exact Nat.two_pow_pos j

theorem capacity_le (h : Sound b) : b.capacity.toNat ≤ 2 ^ 63 := by
  obtain ⟨j, hj63, hj⟩ := h.capacity
  rw [hj]
  exact Nat.pow_le_pow_right Nat.two_pos hj63

theorem resetData (h : Sound b) : Sound b.resetData := ⟨h.capacity, h.length, Nat.zero_le _⟩

/-- A message that fits is copied behind the content. -/
theorem stored (h : Sound b) (hfits : b.size.toNat + m.bytes.length ≤ b.capacity.toNat) :
    Sound (b.stored m.bytes m.record.messageLength) ∧
      (b.stored m.bytes m.record.messageLength).content = b.content ++ m.bytes.map some := by
  have hsize := size_stored hfits
  have hroom : b.size.toNat + (m.bytes.map some).length ≤ b.elasticData.length := by
    rwa [List.length_map, h.length]
  refine ⟨⟨h.capacity, ?_, ?_⟩, ?_⟩
  · exact (Storage.length_overwrite hroom).trans h.length
  · exact hsize.trans_le hfits
  · have hmap : m.bytes.length = (m.bytes.map some).length := (List.length_map _).symm
    rw [content, hsize, hmap]
    change (Storage.overwrite _ _ _).take _ = _
    rw [Storage.take_overwrite (h.length ▸ h.size_le), content]

/-- The message does not ask for more than `2 ^ 63` bytes. -/
theorem grown (h : Sound b) (hsize : b.size = 0) (m : Message) :
    Sound (b.grown m.bytes.length) := by
  obtain ⟨j, hj63, hj⟩ := h.capacity
  have hcount : Doubling.count b.capacity.toNat m.bytes.length ≤ 63 - j := by
    rw [Doubling.count_le_iff h.capacity_pos, hj, ← pow_add, Nat.add_sub_cancel' hj63]
    exact m.lt.le
  refine ⟨⟨j + Doubling.count b.capacity.toNat m.bytes.length, by omega, ?_⟩,
    length_double_iterate h.length _, ?_⟩
  · rw [toNat_grown_capacity h.capacity_pos, pow_add, hj]
  · rw [LogBuffer.grown, size_double_iterate, hsize]
    exact Nat.zero_le _

/-- A buffer that is not empty refuses what does not fit. -/
theorem writeRecord_of_full (h : Sound b) (hsize : b.size ≠ 0)
    (hfull : b.capacity.toNat < b.size.toNat + m.bytes.length) (hfuel : loopBound ≤ fuel) :
    b.writeRecord allocates fuel m.record = some (.returned false, b) := by
  refine LogBuffer.writeRecord_of_full hsize hfull ?_ hfuel
  have hsize_le := h.size_le.trans h.capacity_le
  have hm := m.lt
  omega

/-- **One `WriteRecord`.** It terminates, its result follows the size and the capacity, and an
accepted message is appended to the content. -/
theorem exists_writes (h : Sound b) (m : Message) :
    ∃ success b', Writes b m success b' ∧ Sound b' ∧
      b'.content = b.content ++ if success then m.bytes.map some else [] := by
  rcases le_or_gt (b.size.toNat + m.bytes.length) b.capacity.toNat with hfits | hfull
  · obtain ⟨hsound, hcontent⟩ := h.stored hfits
    refine ⟨true, _, ⟨fun _ ↦ writeRecord_of_le h.length hfits, ?_, nofun, ?_, fun _ ↦ rfl⟩, hsound,
      hcontent⟩
    · exact iff_of_true rfl (.inr hfits)
    · intro _ hlt
      omega
  · by_cases hsize : b.size = 0
    · rw [hsize, UInt64.toNat_zero, Nat.zero_add] at hfull
      have hpos := h.capacity_pos
      obtain ⟨hsound, hcontent⟩ := (h.grown hsize m).stored (grown_fits hpos hsize m)
      refine ⟨true, _, ⟨fun _ ↦ writeRecord_of_empty h.length hpos hsize, ?_, nofun, ?_, ?_⟩,
        hsound, ?_⟩
      · exact iff_of_true rfl (.inl hsize)
      · exact fun _ _ ↦ ⟨_, Doubling.isLeast_count hpos, toNat_grown_capacity hpos m⟩
      · exact fun hnot ↦ absurd ⟨hsize, hfull⟩ hnot
      · -- the array that was thrown away had nothing in it
        have hempty : (b.grown m.bytes.length).size = 0 :=
          (size_double_iterate b _).trans hsize
        rw [hcontent, content_of_size_eq_zero hempty, content_of_size_eq_zero hsize]
        rfl
    · refine ⟨false, b,
        ⟨fun _ ↦ h.writeRecord_of_full hsize hfull, ?_, fun _ ↦ rfl, ?_, fun _ ↦ rfl⟩, h,
        (List.append_nil _).symm⟩
      · refine iff_of_false Bool.false_ne_true ?_
        rintro (h0 | hle)
        · exact hsize h0
        · exact not_le_of_gt hfull hle
      · exact fun h0 ↦ absurd h0 hsize

end Sound

/-! ## Sequences of calls -/

structure State where
  buffer : LogBuffer
  /-- The messages accepted since the last `ResetData`. -/
  accepted : List Message

inductive Call
  | writeRecord (m : Message)
  | resetData

def step (fuel : ℕ) (s : State) : Call → Option State
  | .writeRecord m =>
    match s.buffer.writeRecord allocates fuel m.record with
    | some (.returned success, b) =>
      some ⟨b, if success then s.accepted ++ [m] else s.accepted⟩
    | _ => none
  | .resetData => some ⟨s.buffer.resetData, []⟩

def machine (fuel : ℕ) : Machine State Call := ⟨step fuel⟩

/-- A new buffer of the default capacity. -/
def start : State := ⟨create logBufferLen, []⟩

/-- The content is what was accepted. -/
structure Filled (s : State) : Prop where
  sound : Sound s.buffer
  content : s.buffer.content = (s.accepted.flatMap Message.bytes).map some

theorem filled_start : Filled start := ⟨sound_create, content_of_size_eq_zero rfl⟩

theorem Filled.exists_step {s : State} (h : Filled s) (c : Call) :
    ∃ s', (∀ fuel : { fuel // loopBound ≤ fuel }, (machine fuel).step s c = some s') ∧
      Filled s' := by
  rcases c with m | _
  · obtain ⟨success, b, hwrites, hsound, hcontent⟩ := h.sound.exists_writes m
    refine ⟨⟨b, if success then s.accepted ++ [m] else s.accepted⟩, fun fuel ↦ ?_, hsound, ?_⟩
    · change step fuel s (.writeRecord m) = _
      rw [step, hwrites.returns fuel fuel.2]
    · change b.content = _
      rw [hcontent, h.content]
      cases success with
      | true =>
        rw [if_pos rfl, if_pos rfl, List.flatMap_append, List.map_append, List.flatMap_singleton]
      | false => exact List.append_nil _
  · exact ⟨⟨s.buffer.resetData, []⟩, fun _ ↦ rfl, h.sound.resetData, content_of_size_eq_zero rfl⟩

/-- **A log buffer holds exactly the records it accepted.** Any calls of `WriteRecord` and
`ResetData` on a new buffer terminate. Afterwards the size is not above the capacity, which is the
length of the array; the first `size_` bytes are the messages accepted since the last `ResetData`,
in their order; and `Writes` says what the next `WriteRecord` does. An empty buffer accepts every
message, whatever another buffer has refused. -/
theorem holds_accepted (calls : List Call) :
    ∃ s, (∀ fuel, loopBound ≤ fuel → (machine fuel).run start calls = some s) ∧
      s.buffer.size ≤ s.buffer.capacity ∧
      s.buffer.elasticData.length = s.buffer.capacity.toNat ∧
      s.buffer.elasticData.take s.buffer.size.toNat =
        (s.accepted.flatMap Message.bytes).map some ∧
      s.buffer.resetData.capacity = s.buffer.capacity ∧
      (∀ m, ∃ success b, Writes s.buffer m success b) ∧
      (s.buffer.size = 0 → ∀ m, ∃ b, Writes s.buffer m true b) := by
  obtain ⟨s, hrun, hs⟩ : ∃ s,
      (∀ fuel : { fuel // loopBound ≤ fuel }, (machine fuel).run start calls = some s) ∧ Filled s :=
    Machine.exists_common_run (C := fun _ ↦ True) (fun _ c hs _ ↦ Filled.exists_step hs c)
      filled_start fun _ _ ↦ trivial
  refine ⟨s, fun fuel hfuel ↦ hrun ⟨fuel, hfuel⟩, UInt64.le_iff_toNat_le.mpr hs.sound.size_le,
    hs.sound.length, hs.content, rfl, fun m ↦ ?_, fun hsize m ↦ ?_⟩
  · obtain ⟨success, b, hwrites, -⟩ := hs.sound.exists_writes m
    exact ⟨success, b, hwrites⟩
  · obtain ⟨success, b, hwrites, -⟩ := hs.sound.exists_writes m
    obtain rfl : success = true := hwrites.success_iff.mpr (.inl hsize)
    exact ⟨b, hwrites⟩

end LogBuffer

end FulgurLogging
