import FulgurLogging.Lib.Object
import FulgurLogging.LogBuffer.Changes

/-!
# A recycled log buffer

`ResetData` sets the size to zero. Capacity and array stay, and what is left in the array is not
read before it is overwritten, so that the writes to a recycled buffer go as in a new one of the
same capacity. The maximum log id stays too, and `GetMaxLogId` shows it.
-/

namespace FulgurLogging

open Transition

namespace LogBuffer

/-- What a buffer is used for after it has been recycled. -/
inductive Use
  | writeRecord (m : Message)
  | setMaxLogId (newMax : UInt64)
  | resetData
  | getMaxLogId
  | getSize
  /-- The first `GetSize()` bytes of `GetData()`. -/
  | getData

inductive Reply
  | written (success : Bool)
  | done
  | maxLogId (id : UInt64)
  | size (size : UInt64)
  | data (bytes : List (Option UInt8))
deriving DecidableEq

def use (fuel : ℕ) (b : LogBuffer) : Use → Option (Reply × LogBuffer)
  | .writeRecord m =>
    match b.writeRecord allocates fuel m.record with
    | some (.returned success, b') => some (.written success, b')
    | _ => none
  | .setMaxLogId newMax => some (.done, b.setMaxLogId newMax)
  | .resetData => some (.done, b.resetData)
  | .getMaxLogId => some (.maxLogId b.getMaxLogId, b)
  | .getSize => some (.size b.getSize, b)
  | .getData => some (.data b.content, b)

def uses (fuel : ℕ) : Object LogBuffer Use Reply := ⟨use fuel⟩

/-! ## Buffers that differ in what nothing reads -/

/-- The same size, capacity and content; the arrays are of the same length. -/
structure Alike (b c : LogBuffer) : Prop where
  size : b.size = c.size
  capacity : b.capacity = c.capacity
  length : b.elasticData.length = c.elasticData.length
  content : b.content = c.content

namespace Alike

variable {b c : LogBuffer} {m : Message} {fuel : ℕ}

theorem double (h : Alike b c) : Alike b.double c.double where
  size := h.size
  capacity := congrArg (· * 2) h.capacity
  length := by rw [LogBuffer.double, LogBuffer.double, h.capacity]
  content := by
    rw [LogBuffer.content, LogBuffer.content, LogBuffer.double, LogBuffer.double, h.capacity,
      h.size]

/-- The loop reads size and capacity only. -/
theorem makeRoom (h : Alike b c) (len : UInt64) (fuel : ℕ) (available : ℕ → Bool) :
    (makeRoom available len fuel b = none ∧ makeRoom available len fuel c = none) ∨
      ∃ e b' c', makeRoom available len fuel b = some (e, b') ∧
        makeRoom available len fuel c = some (e, c') ∧ Alike b' c' := by
  induction fuel generalizing available b c with
  | zero => exact .inl ⟨rfl, rfl⟩
  | succ fuel ih =>
    rw [LogBuffer.makeRoom, LogBuffer.makeRoom, h.size, h.capacity]
    split_ifs
    · exact ih h.double _
    · have hcontent := h.content
      rw [LogBuffer.content, h.size] at hcontent
      exact .inr ⟨_, _, _, rfl, rfl, rfl, rfl, h.length, hcontent⟩
    · exact .inr ⟨_, _, _, rfl, rfl, h⟩
    · exact .inr ⟨_, _, _, rfl, rfl, h⟩

/-- A message that is copied covers what was left behind the content. -/
theorem stored (h : Alike b c) (hroom : b.size.toNat + m.bytes.length ≤ b.elasticData.length) :
    Alike (b.stored m.bytes m.record.messageLength)
      (c.stored m.bytes m.record.messageLength) := by
  have hmap : (m.bytes.map some).length = m.bytes.length := List.length_map _
  have hb : b.size.toNat + (m.bytes.map some).length ≤ b.elasticData.length := by rwa [hmap]
  have hc : c.size.toNat + (m.bytes.map some).length ≤ c.elasticData.length := by
    rwa [← h.size, ← h.length]
  have hend : (c.size + m.record.messageLength).toNat ≤
      c.size.toNat + (m.bytes.map some).length := by
    rw [UInt64.toNat_add, m.toNat_messageLength, hmap]
    exact Nat.mod_le _ _
  have hcontent := h.content
  rw [LogBuffer.content, LogBuffer.content, h.size] at hcontent
  refine ⟨congrArg (· + _) h.size, h.capacity, ?_, ?_⟩
  · change (Storage.overwrite _ _ _).length = (Storage.overwrite _ _ _).length
    rw [Storage.length_overwrite hb, Storage.length_overwrite hc, h.length]
  · change (Storage.overwrite _ _ _).take (b.size + _).toNat =
      (Storage.overwrite _ _ _).take (c.size + _).toNat
    rw [h.size] at hb ⊢
    rw [Storage.take_overwrite_of_le (Nat.le_of_add_right_le hb) hend,
      Storage.take_overwrite_of_le (Nat.le_of_add_right_le hc) hend, hcontent]

theorem copyData (h : Alike b c) (m : Message) :
    ∃ outcome b' c', b.copyData m.record.message m.record.messageLength = (outcome, b') ∧
      c.copyData m.record.message m.record.messageLength = (outcome, c') ∧ Alike b' c' := by
  have hlt : m.bytes.length < 2 ^ 64 := m.lt.trans (by decide)
  rcases le_or_gt (b.size.toNat + m.bytes.length) b.elasticData.length with hroom | hover
  · refine ⟨_, _, _, copyData_of_le m.pos hlt hroom, copyData_of_le m.pos hlt ?_, h.stored hroom⟩
    rwa [← h.size, ← h.length]
  · refine ⟨_, _, _, copyData_of_lt m.pos hlt hover, copyData_of_lt m.pos hlt ?_, h⟩
    rwa [← h.size, ← h.length]

theorem writeRecord (h : Alike b c) (m : Message) (fuel : ℕ) :
    (b.writeRecord allocates fuel m.record = none ∧
        c.writeRecord allocates fuel m.record = none) ∨
      ∃ outcome b' c', b.writeRecord allocates fuel m.record = some (outcome, b') ∧
        c.writeRecord allocates fuel m.record = some (outcome, c') ∧ Alike b' c' := by
  rw [LogBuffer.writeRecord, LogBuffer.writeRecord, writeData, writeData]
  rcases h.makeRoom m.record.messageLength fuel allocates with
    ⟨hb, hc⟩ | ⟨e, b', c', hb, hc, hloop⟩
  · rw [hb, hc]
    exact .inl ⟨rfl, rfl⟩
  · rw [hb, hc]
    refine .inr ?_
    cases e with
    | room =>
      obtain ⟨outcome, b'', c'', hcopyb, hcopyc, hcopy⟩ := hloop.copyData m
      exact ⟨outcome, b'', c'', congrArg some hcopyb, congrArg some hcopyc, hcopy⟩
    | refused => exact ⟨_, _, _, rfl, rfl, hloop⟩
    | badAlloc => exact ⟨_, _, _, rfl, rfl, hloop⟩

end Alike

/-! ## The maximum log id -/

section MaxLogId

variable {available : ℕ → Bool} {len : UInt64} {fuel : ℕ} {b b' : LogBuffer}

theorem maxLogId_double_iterate (b : LogBuffer) (k : ℕ) :
    (double^[k] b).maxLogId = b.maxLogId := by
  induction k with
  | zero => rfl
  | succ k ih =>
    rw [Function.iterate_succ_apply']
    exact ih

theorem maxLogId_copyData (b : LogBuffer) (data : Option (List UInt8)) (len : UInt64) :
    (b.copyData data len).2.maxLogId = b.maxLogId := by
  cases data with
  | none => rfl
  | some bytes =>
    rw [copyData]
    split_ifs
    · rfl
    · cases Storage.copy b.elasticData b.size.toNat ((bytes.take len.toNat).map some) <;> rfl

/-- No write changes the maximum log id. -/
theorem maxLogId_writeRecord {record : LogRecord} {outcome : Outcome}
    (h : b.writeRecord available fuel record = some (outcome, b')) : b'.maxLogId = b.maxLogId := by
  rcases writeRecord_cases h with ⟨k, -, -, hcopy⟩ | ⟨-, rfl⟩ | ⟨-, k, -, -, rfl⟩
  · rw [← maxLogId_double_iterate b k, ← maxLogId_copyData (double^[k] b) record.message
      record.messageLength, hcopy]
  · rfl
  · exact maxLogId_double_iterate b k

end MaxLogId

/-- The maximum log id after a change. -/
def idAfter (id : UInt64) : Change → UInt64
  | .setMaxLogId newMax => newMax
  | _ => id

/-- The argument of the last `SetMaxLogId`, if there is one. -/
def lastMaxLogId (history : List Change) : UInt64 := history.foldl idAfter 0

theorem maxLogId_change {fuel : ℕ} {b b' : LogBuffer} {c : Change}
    (h : change fuel b c = some b') : b'.maxLogId = idAfter b.maxLogId c := by
  cases c with
  | writeRecord m =>
    obtain ⟨success, hcall⟩ := exists_returned h
    exact maxLogId_writeRecord hcall
  | setMaxLogId newMax =>
    obtain rfl := Option.some_inj.mp h
    rfl
  | setSize size =>
    obtain ⟨-, rfl⟩ := eq_of_setSize h
    rfl
  | resetData =>
    obtain rfl := Option.some_inj.mp h
    rfl

theorem maxLogId_run {fuel : ℕ} {history : List Change} {b b' : LogBuffer}
    (h : (changes fuel).run b history = some b') :
    b'.maxLogId = history.foldl idAfter b.maxLogId := by
  induction history generalizing b with
  | nil =>
    rw [Machine.run_nil, Option.some_inj] at h
    rw [h, List.foldl_nil]
  | cons c history ih =>
    rw [Machine.run_cons, Option.bind_eq_some_iff] at h
    obtain ⟨d, hstep, hrest⟩ := h
    rw [ih hrest, maxLogId_change hstep, List.foldl_cons]

/-! ## Uses that agree -/

section Use

variable {S : UInt64 → UInt64 → Prop} {fuel : ℕ} {b c : LogBuffer}

/-- Alike, with maximum log ids that `S` relates. -/
def AlikeUpTo (S : UInt64 → UInt64 → Prop) (b c : LogBuffer) : Prop :=
  Alike b c ∧ S b.maxLogId c.maxLogId

theorem agrees_setMaxLogId (h : Alike b c) (newMax : UInt64) :
    (uses fuel).Agrees (AlikeUpTo (· = ·)) b c (.setMaxLogId newMax) :=
  .inr ⟨.done, _, _, rfl, rfl, ⟨h.size, h.capacity, h.length, h.content⟩, rfl⟩

theorem call_of_returned {m : Message} {success : Bool} {b' : LogBuffer}
    (h : b.writeRecord allocates fuel m.record = some (.returned success, b')) :
    (uses fuel).call b (.writeRecord m) = some (.written success, b') := by
  change use fuel b (.writeRecord m) = _
  rw [use, h]

theorem call_of_not_returned {m : Message}
    (h : ∀ success b', b.writeRecord allocates fuel m.record ≠ some (.returned success, b')) :
    (uses fuel).call b (.writeRecord m) = none := by
  change use fuel b (.writeRecord m) = none
  rw [use]
  split
  · next success b' hcall => exact absurd hcall (h success b')
  · rfl

theorem agrees_writeRecord (h : AlikeUpTo S b c) (m : Message) :
    (uses fuel).Agrees (AlikeUpTo S) b c (.writeRecord m) := by
  rcases h.1.writeRecord m fuel with ⟨hb, hc⟩ | ⟨outcome, b', c', hb, hc, hcall⟩
  · refine .inl ⟨call_of_not_returned ?_, call_of_not_returned ?_⟩
    · rw [hb]
      exact nofun
    · rw [hc]
      exact nofun
  · by_cases hreturned : ∃ success, outcome = .returned success
    · obtain ⟨success, rfl⟩ := hreturned
      refine .inr ⟨_, _, _, call_of_returned hb, call_of_returned hc, hcall, ?_⟩
      rw [maxLogId_writeRecord hb, maxLogId_writeRecord hc]
      exact h.2
    · refine .inl ⟨call_of_not_returned ?_, call_of_not_returned ?_⟩
      · intro success d hd
        exact hreturned ⟨success, congrArg Prod.fst (Option.some_inj.mp (hb.symm.trans hd))⟩
      · intro success d hd
        exact hreturned ⟨success, congrArg Prod.fst (Option.some_inj.mp (hc.symm.trans hd))⟩

/-- Only the maximum log id is not determined by what the buffers have in common. -/
theorem agrees_of_not (h : AlikeUpTo S b c) {u : Use} (hget : ¬u = .getMaxLogId)
    (hset : ¬∃ newMax, u = .setMaxLogId newMax) : (uses fuel).Agrees (AlikeUpTo S) b c u := by
  cases u with
  | writeRecord m => exact agrees_writeRecord h m
  | setMaxLogId newMax => exact absurd ⟨newMax, rfl⟩ hset
  | resetData =>
    refine .inr ⟨.done, _, _, rfl, rfl, ⟨rfl, h.1.capacity, h.1.length, ?_⟩, h.2⟩
    rw [content_of_size_eq_zero rfl, content_of_size_eq_zero rfl]
  | getMaxLogId => exact absurd rfl hget
  | getSize =>
    have hsize := congrArg (fun n ↦ some (Reply.size n, b)) h.1.size
    exact .inr ⟨_, _, _, hsize, rfl, h⟩
  | getData =>
    have hdata := congrArg (fun bytes ↦ some (Reply.data bytes, b)) h.1.content
    exact .inr ⟨_, _, _, hdata, rfl, h⟩

theorem agrees (h : AlikeUpTo (· = ·) b c) (u : Use) :
    (uses fuel).Agrees (AlikeUpTo (· = ·)) b c u := by
  by_cases hget : u = .getMaxLogId
  · obtain rfl := hget
    have hid := congrArg (fun id ↦ some (Reply.maxLogId id, b)) h.2
    exact .inr ⟨_, _, _, hid, rfl, h⟩
  · by_cases hset : ∃ newMax, u = .setMaxLogId newMax
    · obtain ⟨newMax, rfl⟩ := hset
      exact agrees_setMaxLogId h.1 newMax
    · exact agrees_of_not h hget hset

end Use

/-! ## A recycled buffer against a new one -/

/-- A `GetMaxLogId` that is reached comes after a `SetMaxLogId`. -/
def SetsBeforeGetting (fuel : ℕ) (b : LogBuffer) (calls : List Use) : Prop :=
  (uses fuel).CoveredUp (fun u ↦ ∃ newMax, u = .setMaxLogId newMax) (· = .getMaxLogId) b calls

theorem alike_of_reset {fuel : ℕ} {capacity : UInt64} {history : List Change} {b : LogBuffer}
    (h : (changes fuel).run (create capacity) (history ++ [.resetData]) = some b) :
    Alike b (create b.capacity) ∧ b.maxLogId = lastMaxLogId history := by
  rw [Machine.run_append, Option.bind_eq_some_iff] at h
  obtain ⟨c, hrun, hreset⟩ := h
  obtain rfl : c.resetData = b := Option.some_inj.mp hreset
  have hlength : FullLength c :=
    Machine.Preserves.run (M := changes fuel) (fun _ _ _ hd hstep ↦ hd.change hstep)
      (fullLength_create capacity) hrun
  refine ⟨⟨rfl, rfl, hlength.trans (length_newChars _).symm, ?_⟩, maxLogId_run hrun⟩
  rw [content_of_size_eq_zero rfl, content_of_size_eq_zero rfl]

/-- **Recycling.** After a history that ends in `ResetData`, the replies to further calls are those
of a new buffer of the same capacity exactly if the maximum log id last set was 0, or no
`GetMaxLogId` reads it before it is set again. -/
theorem recycled_iff {fuel : ℕ} {capacity : UInt64} {history : List Change} {b : LogBuffer}
    (h : (changes fuel).run (create capacity) (history ++ [.resetData]) = some b)
    (calls : List Use) :
    (uses fuel).replies b calls = (uses fuel).replies (create b.capacity) calls ↔
      lastMaxLogId history = 0 ∨ SetsBeforeGetting fuel (create b.capacity) calls := by
  obtain ⟨halike, hid⟩ := alike_of_reset h
  rw [← hid]
  by_cases h0 : b.maxLogId = 0
  · exact iff_of_true (Object.replies_eq (fun _ _ ↦ agrees) ⟨halike, h0⟩ calls) (.inl h0)
  · rw [or_iff_right h0]
    refine Object.replies_eq_iff (E := AlikeUpTo (· = ·)) (R := AlikeUpTo (· ≠ ·))
      (fun _ _ ↦ agrees) ?_ ?_ ?_ ⟨halike, h0⟩ calls
    · -- `GetMaxLogId` shows the two ids
      rintro b c _ ⟨-, hne⟩ rfl
      exact ⟨_, _, rfl, rfl, fun heq ↦ hne (Reply.maxLogId.inj heq)⟩
    · -- `SetMaxLogId` makes them the same
      rintro b c _ hR ⟨newMax, rfl⟩
      exact agrees_setMaxLogId hR.1 newMax
    · exact fun _ _ _ hR hget hset ↦ agrees_of_not hR hget hset

/-- A buffer that took one message and was reset. -/
theorem recycled_oneByte :
    ∃ b, (changes loopBound).run (create 4) [.writeRecord oneByte, .resetData] = some b ∧
      (uses loopBound).replies b [.writeRecord oneByte, .getData, .getMaxLogId] =
        (uses loopBound).replies (create b.capacity)
          [.writeRecord oneByte, .getData, .getMaxLogId] := by
  have hrun : (changes loopBound).run (create 4) ([.writeRecord oneByte] ++ [.resetData]) =
    some _ := rfl
  exact ⟨_, hrun, (recycled_iff hrun _).mpr (.inl rfl)⟩

/-- The maximum log id outlives `ResetData`. -/
theorem reset_keeps_maxLogId :
    ∃ b, (changes loopBound).run (create 4) [.setMaxLogId 5, .resetData] = some b ∧
      (uses loopBound).replies b [.getMaxLogId] = [.maxLogId 5] ∧
      (uses loopBound).replies (create b.capacity) [.getMaxLogId] = [.maxLogId 0] :=
  ⟨_, rfl, rfl, rfl⟩

end LogBuffer

end FulgurLogging
