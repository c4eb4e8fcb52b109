import FulgurLogging.Lib.Delimited
import FulgurLogging.LogBuffer.WriteData

/-!
# What `GetInfo` tells about a record

`GetInfo` prints a record, field by field. Its text can be read back: the numbers are printed in
decimal, so that none contains the blank or the line break behind it. What does not get as far as
the text is the transaction id the record was made with, since the constructor initialises
`txn_id` with itself, and the name of `LOGRECORD_TYPE_UPDATE_COMMIT`, which is missing from
`LogRecordTypeToString`.
-/

namespace FulgurLogging

open Delimited

inductive LogRecordType
  | invalid
  | insert | delete | update
  | insertBegin | deleteBegin | updateBegin
  | insertCommit | deleteCommit | updateCommit
  | iterationDelimiter
deriving DecidableEq

def logRecordTypeToString : LogRecordType → String
  | .invalid => "INVALID"
  | .insert => "LOGRECORD_TYPE_INSERT"
  | .delete => "LOGRECORD_TYPE_DELETE"
  | .update => "LOGRECORD_TYPE_UPDATE"
  | .insertBegin => "LOGRECORD_TYPE_INSERT_BEGIN"
  | .deleteBegin => "LOGRECORD_TYPE_DELETE_BEGIN"
  | .updateBegin => "LOGRECORD_TYPE_UPDATE_BEGIN"
  | .insertCommit => "LOGRECORD_TYPE_INSERT_COMMIT"
  | .deleteCommit => "LOGRECORD_TYPE_DELETE_COMMIT"
  | .iterationDelimiter => "ITERATION_DELIMITER"
  -- the default, which is left to `updateCommit`
  | _ => "INVALID"

@[ext] structure ItemPointer where
  block : UInt32
  offset : UInt32
deriving DecidableEq

def invalidOid : UInt32 := UInt32.ofNat (2 ^ 32 - 1)

/-- All members of a `LogRecord`, with their initialisers. A null `tuple_data` is 0. -/
structure FullLogRecord extends LogRecord where
  message := none
  messageLength := 0
  logRecordType : LogRecordType := .invalid
  txnId : UInt64
  tableOid : UInt32 := invalidOid
  insertLocation : ItemPointer
  deleteLocation : ItemPointer
  tupleData : UInt64
  dbOid : UInt32 := 0

namespace FullLogRecord

/-- The constructor, in memory that contains `before`. The parameter is called `cid`, so that both
names in the initialiser of `txn_id` are the member. -/
def construct (before : FullLogRecord) (logRecordType : LogRecordType) (_cid : UInt64)
    (tableOid : UInt32) (insertLocation deleteLocation : ItemPointer) (tupleData : UInt64 := 0)
    (dbOid : UInt32 := invalidOid) : FullLogRecord where
  logRecordType := logRecordType
  -- `txn_id(txn_id)`
  txnId := before.txnId
  tableOid := tableOid
  insertLocation := insertLocation
  deleteLocation := deleteLocation
  tupleData := tupleData
  dbOid := dbOid

/-- `GetInfo`. The class has no `GetTupleLocation`. -/
def getInfo (getTupleLocation : FullLogRecord → ItemPointer) (r : FullLogRecord) : String :=
  "log_record_type: " ++ logRecordTypeToString r.logRecordType ++ "\n" ++
  "db_oid: " ++ toString r.dbOid ++ "\n" ++
  "table_oid: " ++ toString r.tableOid ++ "\n" ++
  "txn_id: " ++ toString r.txnId ++ "\n" ++
  "tuple_location: " ++ toString (getTupleLocation r).block ++
  " " ++ toString (getTupleLocation r).offset ++ "\n" ++
  "message_length: " ++ toString r.messageLength ++ "\n" ++
  "\n"

/-! ## Reading the text back -/

/-- The fields of the text. The block of the location ends with a blank. -/
def infoFields : List (TextField Char) :=
  [⟨"log_record_type: ".toList, '\n'⟩, ⟨"db_oid: ".toList, '\n'⟩, ⟨"table_oid: ".toList, '\n'⟩,
    ⟨"txn_id: ".toList, '\n'⟩, ⟨"tuple_location: ".toList, ' '⟩, ⟨[], '\n'⟩,
    ⟨"message_length: ".toList, '\n'⟩, ⟨[], '\n'⟩]

variable {getTupleLocation : FullLogRecord → ItemPointer} {r r' : FullLogRecord}

/-- What stands in them. -/
def infoBodies (getTupleLocation : FullLogRecord → ItemPointer) (r : FullLogRecord) :
    List (List Char) :=
  [(logRecordTypeToString r.logRecordType).toList, Nat.toDigits 10 r.dbOid.toNat,
    Nat.toDigits 10 r.tableOid.toNat, Nat.toDigits 10 r.txnId.toNat,
    Nat.toDigits 10 (getTupleLocation r).block.toNat,
    Nat.toDigits 10 (getTupleLocation r).offset.toNat, Nat.toDigits 10 r.messageLength.toNat, []]

theorem toList_getInfo :
    (getInfo getTupleLocation r).toList = render infoFields (infoBodies getTupleLocation r) := by
  have h32 (n : UInt32) : (toString n).toList = Nat.toDigits 10 n.toNat := by
    rw [← Nat.toList_repr]
    rfl
  have h64 (n : UInt64) : (toString n).toList = Nat.toDigits 10 n.toNat := by
    rw [← Nat.toList_repr]
    rfl
  have hbreak : "\n".toList = ['\n'] := rfl
  have hblank : " ".toList = [' '] := rfl
  unfold getInfo
  simp only [infoFields, infoBodies, render, String.toList_append, h32, h64, hbreak,
    hblank, List.append_assoc, List.nil_append, List.cons_append]

theorem notMem_logRecordTypeToString (t : LogRecordType) :
    '\n' ∉ (logRecordTypeToString t).toList := by
  cases t <;> decide

theorem fits_infoBodies :
    List.Forall₂ TextField.Fits infoFields (infoBodies getTupleLocation r) := by
  have hbreak (n : ℕ) : '\n' ∉ Nat.toDigits 10 n := notMem_toDigits rfl n
  have hblank (n : ℕ) : ' ' ∉ Nat.toDigits 10 n := notMem_toDigits rfl n
  exact .cons (notMem_logRecordTypeToString _) <| .cons (hbreak _) <| .cons (hbreak _) <|
    .cons (hbreak _) <| .cons (hblank _) <| .cons (hbreak _) <| .cons (hbreak _) <|
    .cons List.not_mem_nil .nil

/-- **Round trip.** The printed values can be read back from the text. -/
theorem bodies_getInfo :
    bodies infoFields (getInfo getTupleLocation r).toList = infoBodies getTupleLocation r := by
  rw [toList_getInfo, bodies_render fits_infoBodies]

/-- Two records have one text exactly if they agree in all that is printed. -/
theorem getInfo_eq_iff : getInfo getTupleLocation r = getInfo getTupleLocation r' ↔
    logRecordTypeToString r.logRecordType = logRecordTypeToString r'.logRecordType ∧
      r.dbOid = r'.dbOid ∧ r.tableOid = r'.tableOid ∧ r.txnId = r'.txnId ∧
      getTupleLocation r = getTupleLocation r' ∧ r.messageLength = r'.messageLength := by
  rw [← String.toList_inj, toList_getInfo, toList_getInfo,
    render_inj fits_infoBodies fits_infoBodies]
  simp only [infoBodies, List.cons.injEq, toDigits_inj, String.toList_inj, UInt32.toNat_inj,
    UInt64.toNat_inj, ItemPointer.ext_iff, and_true, and_assoc]

/-! ## Records printed to one stream -/

/-- What the stream contains. -/
def printed (getTupleLocation : FullLogRecord → ItemPointer) (rs : List FullLogRecord) : String :=
  rs.foldl (fun text r ↦ text ++ getInfo getTupleLocation r) ""

theorem toList_printed (rs : List FullLogRecord) :
    (printed getTupleLocation rs).toList =
      ((rs.map (infoBodies getTupleLocation)).map (render infoFields)).flatten := by
  have hfold (rs : List FullLogRecord) (text : String) :
      (rs.foldl (fun text r ↦ text ++ getInfo getTupleLocation r) text).toList = text.toList ++
        ((rs.map (infoBodies getTupleLocation)).map (render infoFields)).flatten := by
    induction rs generalizing text with
    | nil => exact (List.append_nil _).symm
    | cons r rs ih =>
      rw [List.foldl_cons, ih, String.toList_append, toList_getInfo, List.append_assoc,
        List.map_cons, List.map_cons, List.flatten_cons]
  exact hfold rs ""

/-- **Streams of records.** No record is taken for the end of another: streams have one content
exactly if they are of equally many records, which agree one by one in all that is printed. -/
theorem printed_eq_iff {rs rs' : List FullLogRecord} :
    printed getTupleLocation rs = printed getTupleLocation rs' ↔
      List.Forall₂ (fun r r' ↦
        logRecordTypeToString r.logRecordType = logRecordTypeToString r'.logRecordType ∧
          r.dbOid = r'.dbOid ∧ r.tableOid = r'.tableOid ∧ r.txnId = r'.txnId ∧
          getTupleLocation r = getTupleLocation r' ∧ r.messageLength = r'.messageLength)
        rs rs' := by
  have hfits (rs : List FullLogRecord) : ∀ bs ∈ rs.map (infoBodies getTupleLocation),
      List.Forall₂ TextField.Fits infoFields bs := by
    intro bs hbs
    obtain ⟨r, -, rfl⟩ := List.mem_map.mp hbs
    exact fits_infoBodies
  have hbodies : printed getTupleLocation rs = printed getTupleLocation rs' ↔
      rs.map (infoBodies getTupleLocation) = rs'.map (infoBodies getTupleLocation) := by
    rw [← String.toList_inj, toList_printed, toList_printed]
    exact ⟨render_flatten_inj (hfits rs) (hfits rs'), fun h ↦ by rw [h]⟩
  rw [hbodies, ← List.forall₂_eq_eq_eq, List.forall₂_map_left_iff, List.forall₂_map_right_iff]
  refine iff_of_eq (congrArg (List.Forall₂ · rs rs') (funext fun r ↦ funext fun r' ↦ ?_))
  rw [← getInfo_eq_iff, ← String.toList_inj, toList_getInfo, toList_getInfo,
    render_inj fits_infoBodies fits_infoBodies]

end FullLogRecord

/-! ## The types that have no name of their own -/

/-- Printed as `INVALID`: the type that is, and the one that `LogRecordTypeToString` leaves out. -/
def LogRecordType.Unnamed (t : LogRecordType) : Prop := t = .invalid ∨ t = .updateCommit

instance : DecidablePred LogRecordType.Unnamed := fun _ ↦ inferInstanceAs (Decidable (_ ∨ _))

/-- The names keep all other types apart. -/
theorem logRecordTypeToString_eq_iff (t u : LogRecordType) :
    logRecordTypeToString t = logRecordTypeToString u ↔ t = u ∨ t.Unnamed ∧ u.Unnamed := by
  cases t <;> cases u <;> decide

/-! ## The text of a new record -/

/-- What a record is made from, with one location that is passed twice. -/
structure Arguments where
  logRecordType : LogRecordType
  cid : UInt64
  tableOid : UInt32
  location : ItemPointer
  dbOid : UInt32
deriving DecidableEq

namespace Arguments

/-- The record, without a tuple. -/
def record (a : Arguments) (before : FullLogRecord) : FullLogRecord :=
  .construct before a.logRecordType a.cid a.tableOid a.location a.location 0 a.dbOid

/-- Memory that is all zeros. -/
def zeroed : FullLogRecord := ⟨⟨none, 0⟩, .invalid, 0, 0, ⟨0, 0⟩, ⟨0, 0⟩, 0, 0⟩

/-- The text identifies the arguments: it differs for different ones, whatever memory the records
are made in. -/
def Identified (getTupleLocation : FullLogRecord → ItemPointer) (a b : Arguments) : Prop :=
  a ≠ b → ∀ before before',
    (a.record before).getInfo getTupleLocation ≠ (b.record before').getInfo getTupleLocation

/-- Nothing but the transaction ids tells the arguments apart, or `INVALID` and `UPDATE_COMMIT`. -/
def LookAlike (a b : Arguments) : Prop :=
  (a.logRecordType = b.logRecordType ∨ a.logRecordType.Unnamed ∧ b.logRecordType.Unnamed) ∧
    a.dbOid = b.dbOid ∧ a.tableOid = b.tableOid ∧ a.location = b.location

section

variable {getTupleLocation : FullLogRecord → ItemPointer}
  (hlocation : ∀ r, r.insertLocation = r.deleteLocation → getTupleLocation r = r.insertLocation)
include hlocation

theorem getInfo_record_eq_iff {a b : Arguments} {before before' : FullLogRecord} :
    (a.record before).getInfo getTupleLocation = (b.record before').getInfo getTupleLocation ↔
      a.LookAlike b ∧ before.txnId = before'.txnId := by
  have hloc (c : Arguments) (g : FullLogRecord) : getTupleLocation (c.record g) = c.location :=
    hlocation _ rfl
  rw [FullLogRecord.getInfo_eq_iff, hloc, hloc, logRecordTypeToString_eq_iff, LookAlike]
  constructor
  · rintro ⟨htype, hdb, htable, htxn, hpointer, -⟩
    exact ⟨⟨htype, hdb, htable, hpointer⟩, htxn⟩
  · rintro ⟨⟨htype, hdb, htable, hpointer⟩, htxn⟩
    exact ⟨htype, hdb, htable, htxn, hpointer, rfl⟩

/-- **What the text identifies.** Different arguments always give different texts exactly if they
differ in the table, the database or the location, or in the name of the type. -/
theorem identified_iff (a b : Arguments) :
    Identified getTupleLocation a b ↔ a = b ∨ ¬a.LookAlike b := by
  constructor
  · intro h
    by_contra hneg
    push Not at hneg
    obtain ⟨hne, hlook⟩ := hneg
    exact h hne zeroed zeroed ((getInfo_record_eq_iff hlocation).mpr ⟨hlook, rfl⟩)
  · rintro (heq | hlook) hne before before' htext
    · exact hne heq
    · exact hlook ((getInfo_record_eq_iff hlocation).mp htext).1

end

/-- The arguments of the test. -/
def sample : Arguments := ⟨.invalid, 1, 2, ⟨3, 3⟩, invalidOid⟩

/-- The digits of the block and of the offset cannot be taken for one another. -/
theorem identified_digits :
    Identified FullLogRecord.insertLocation { sample with location := ⟨1, 23⟩ }
      { sample with location := ⟨12, 3⟩ } := by
  refine (identified_iff (fun _ _ ↦ rfl) _ _).mpr (.inr ?_)
  rintro ⟨-, -, -, hlocation⟩
  exact absurd hlocation (by decide)

example : (sample.record zeroed).getInfo FullLogRecord.insertLocation =
    "log_record_type: INVALID\ndb_oid: 4294967295\ntable_oid: 2\ntxn_id: 0\n" ++
      "tuple_location: 3 3\nmessage_length: 0\n\n" := by
  decide

/-- Made in the same memory, records of the transactions 1 and 2 have one text. -/
theorem transactions_not_identified :
    ¬Identified FullLogRecord.insertLocation sample { sample with cid := 2 } :=
  fun h ↦ h (by decide) zeroed zeroed rfl

end Arguments

end FulgurLogging
