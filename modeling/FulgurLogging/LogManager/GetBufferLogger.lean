import FulgurLogging.Lib.Machine
import Mathlib.Data.List.Basic
import Mathlib.Data.Option.Basic
import Mathlib.Logic.Function.Basic

/-!
# Flush loggers and their assignment to threads

A thread gets a `BufferLogger` of its own when it calls `GetBufferLogger` for the first time, and
the logger is registered with one of the flush loggers, by turns. The turn is the value of an `int`
counter, and `i % num_flush_loggers_` converts it to `unsigned`.

`BufferLogger::GetBufferLogger(logging_type_)` and `FlushLogger::AddGetBufferLogger` have no body.
The first is read as the creation of a logger and the second as `push_back` on `buffer_loggers`.
The loop of `InitFlushLoggers` is read as appending a new `FlushLogger(i)` for each `i`. A pointer
to a `BufferLogger` is its position in the order of creation. The parameter `hint_idx` is not used
by the function and left out.

A step is `none` where the source divides by zero or indexes outside `flush_loggers`.
-/

namespace FulgurLogging

open Transition

inductive LoggingType
  | invalid | nvmWal | ssdWal | hddWal
deriving DecidableEq

/-- A `BufferLogger`, as far as `LogManager` reads and writes it. -/
structure BufferLogger where
  flushLoggerId : Int32

/-- A new logger has no flush logger. -/
def BufferLogger.create (_ : LoggingType) : BufferLogger := ⟨-1⟩

def BufferLogger.setFlushLoggerId (_ : BufferLogger) (id : Int32) : BufferLogger := ⟨id⟩

structure FlushLogger where
  loggerId : UInt32
  /-- `buffer_loggers`, as pointers. -/
  bufferLoggers : List ℕ

def FlushLogger.create (loggerId : UInt32) : FlushLogger := ⟨loggerId, []⟩

def FlushLogger.addBufferLogger (flushLogger : FlushLogger) (bufferLogger : ℕ) : FlushLogger :=
  { flushLogger with bufferLoggers := flushLogger.bufferLoggers ++ [bufferLogger] }

/-- The part of a `LogManager` that assigns flush loggers. -/
structure LogManager where
  loggingType : LoggingType
  flushLoggers : List FlushLogger
  numFlushLoggers : UInt32
  /-- `flush_logger_assign_counter`, an `int` that wraps around. -/
  flushLoggerAssignCounter : Int32

namespace LogManager

/-- A new `LogManager`, with the default members of its header. -/
def create : LogManager := ⟨.invalid, [], 1, 0⟩

def configure (m : LogManager) (loggingType : LoggingType) (numFlushLoggers : UInt32) :
    LogManager :=
  { m with loggingType := loggingType, numFlushLoggers := numFlushLoggers }

def initFlushLoggers (m : LogManager) : LogManager :=
  if m.flushLoggers.length = 0 then
    { m with
      flushLoggers := m.flushLoggers ++
        (List.range m.numFlushLoggers.toNat).map fun i ↦ .create (UInt32.ofNat i) }
  else m

/-- `i % num_flush_loggers_`, where the `int` is converted to `unsigned`. -/
def flushLoggerIndex (m : LogManager) (i : Int32) : UInt32 := i.toUInt32 % m.numFlushLoggers

/-- The index has a non-zero divisor and stays inside `flush_loggers`. -/
def InBounds (m : LogManager) (i : Int32) : Prop :=
  m.numFlushLoggers ≠ 0 ∧ (m.flushLoggerIndex i).toNat < m.flushLoggers.length

instance (m : LogManager) (i : Int32) : Decidable (m.InBounds i) :=
  inferInstanceAs (Decidable (_ ∧ _))

/-- The manager, and the loggers of all threads. -/
structure State (T : Type*) where
  manager : LogManager
  /-- The loggers created, the oldest first. -/
  bufferLoggers : List BufferLogger
  /-- The `thread_local` pointer `buffer_logger`. -/
  bufferLogger : T → Option ℕ

variable {T : Type*} [DecidableEq T]

/-- `buffer_logger = BufferLogger::GetBufferLogger(logging_type_)`. -/
def State.createBufferLogger (s : State T) (t : T) : State T × ℕ :=
  ({ s with
      bufferLoggers := s.bufferLoggers ++ [.create s.manager.loggingType]
      bufferLogger := Function.update s.bufferLogger t (some s.bufferLoggers.length) },
    s.bufferLoggers.length)

/-- `int i = __sync_fetch_and_add(&flush_logger_assign_counter, 1)`. -/
def State.fetchAndAdd (s : State T) : State T × Int32 :=
  ({ s with manager.flushLoggerAssignCounter := s.manager.flushLoggerAssignCounter + 1 },
    s.manager.flushLoggerAssignCounter)

/-- `flush_loggers[i % num_flush_loggers_].get()->AddGetBufferLogger(buffer_logger)`. -/
def State.addBufferLogger (s : State T) (i : Int32) (p : ℕ) : Option (State T) :=
  if s.manager.InBounds i then
    some { s with
      manager.flushLoggers := s.manager.flushLoggers.modify (s.manager.flushLoggerIndex i).toNat
        (·.addBufferLogger p) }
  else none

/-- `buffer_logger->SetFlushLoggerID(i % num_flush_loggers_)`. -/
def State.setFlushLoggerId (s : State T) (i : Int32) (p : ℕ) : Option (State T) :=
  if s.manager.numFlushLoggers = 0 then none
  else
    some { s with
      bufferLoggers := s.bufferLoggers.modify p
        (·.setFlushLoggerId (s.manager.flushLoggerIndex i).toInt32) }

/-- `GetBufferLogger`, with the pointer it returns. -/
def State.getBufferLogger (s : State T) (t : T) : Option (State T × ℕ) :=
  match s.bufferLogger t with
  | some p => some (s, p)
  | none => do
    let (s, p) := s.createBufferLogger t
    let (s, i) := s.fetchAndAdd
    let s ← s.addBufferLogger i p
    let s ← s.setFlushLoggerId i p
    return (s, p)

/-- A call on the manager. -/
inductive Call (T : Type*)
  | configure (loggingType : LoggingType) (numFlushLoggers : UInt32)
  | initFlushLoggers
  | getBufferLogger (t : T)

def step (s : State T) : Call T → Option (State T)
  | .configure loggingType numFlushLoggers =>
    some { s with manager := s.manager.configure loggingType numFlushLoggers }
  | .initFlushLoggers => some { s with manager := s.manager.initFlushLoggers }
  | .getBufferLogger t => (s.getBufferLogger t).map Prod.fst

def machine (T : Type*) [DecidableEq T] : Machine (State T) (Call T) := ⟨step⟩

/-- After `Configure` and the first `InitFlushLoggers` on a new manager. -/
def ready (T : Type*) (loggingType : LoggingType) (numFlushLoggers : UInt32) : State T :=
  ⟨(create.configure loggingType numFlushLoggers).initFlushLoggers, [], fun _ ↦ none⟩

/-! ## `InitFlushLoggers` -/

theorem initFlushLoggers_of_ne {m : LogManager} (h : m.flushLoggers.length ≠ 0) :
    m.initFlushLoggers = m :=
  if_neg h

@[simp] theorem numFlushLoggers_initFlushLoggers (m : LogManager) :
    m.initFlushLoggers.numFlushLoggers = m.numFlushLoggers := by
  rw [initFlushLoggers]
  split <;> rfl

theorem length_initFlushLoggers {m : LogManager} (h : m.flushLoggers.length = 0) :
    m.initFlushLoggers.flushLoggers.length = m.numFlushLoggers.toNat := by
  rw [initFlushLoggers, if_pos h, List.length_append, h, List.length_map, List.length_range,
    Nat.zero_add]

/-- A divisor from one to the number of flush loggers is safe at every value of the counter. -/
theorem inBounds_of_le {m : LogManager} (hpos : 0 < m.numFlushLoggers.toNat)
    (hle : m.numFlushLoggers.toNat ≤ m.flushLoggers.length) (i : Int32) : m.InBounds i := by
  refine ⟨fun h0 ↦ ?_, ?_⟩
  · rw [h0] at hpos
    exact Nat.lt_irrefl 0 hpos
  · rw [flushLoggerIndex, UInt32.toNat_mod]
    exact Nat.lt_of_lt_of_le (Nat.mod_lt _ hpos) hle

/-! ## A call, step by step -/

section Calls

variable {s s' : State T} {t : T} {p : ℕ}

theorem modify_concat_length {α : Type*} (l : List α) (a : α) (f : α → α) :
    (l ++ [a]).modify l.length f = l ++ [f a] := by
  induction l with
  | nil => rfl
  | cons b l ih => rw [List.cons_append, List.length_cons, List.modify_succ_cons, ih,
      List.cons_append]

/-- What the first call of a thread makes of the state. -/
def State.assigned (s : State T) (t : T) : State T :=
  let i := s.manager.flushLoggerAssignCounter
  let index := s.manager.flushLoggerIndex i
  let p := s.bufferLoggers.length
  { manager := { s.manager with
      flushLoggers := s.manager.flushLoggers.modify index.toNat (·.addBufferLogger p)
      flushLoggerAssignCounter := i + 1 }
    bufferLoggers := s.bufferLoggers ++ [⟨index.toInt32⟩]
    bufferLogger := Function.update s.bufferLogger t (some p) }

@[simp] theorem State.assigned_counter (s : State T) (t : T) :
    (s.assigned t).manager.flushLoggerAssignCounter = s.manager.flushLoggerAssignCounter + 1 := rfl

@[simp] theorem State.assigned_bufferLogger (s : State T) (t : T) :
    (s.assigned t).bufferLogger =
      Function.update s.bufferLogger t (some s.bufferLoggers.length) := rfl

@[simp] theorem State.length_assigned_flushLoggers (s : State T) (t : T) :
    (s.assigned t).manager.flushLoggers.length = s.manager.flushLoggers.length :=
  List.length_modify ..

/-- A thread that has a logger keeps it. -/
theorem State.getBufferLogger_of_some (h : s.bufferLogger t = some p) :
    s.getBufferLogger t = some (s, p) := by
  rw [State.getBufferLogger, h]

/-- **The first call of a thread.** It goes through exactly when the index is in bounds. -/
theorem State.getBufferLogger_of_none (h : s.bufferLogger t = none) :
    s.getBufferLogger t =
      if s.manager.InBounds s.manager.flushLoggerAssignCounter then
        some (s.assigned t, s.bufferLoggers.length)
      else none := by
  rw [State.getBufferLogger, h]
  by_cases hb : s.manager.InBounds s.manager.flushLoggerAssignCounter
  · -- drawing the turn changes neither the divisor nor the flush loggers
    have hdrawn : (s.createBufferLogger t).1.fetchAndAdd.1.manager.InBounds
        s.manager.flushLoggerAssignCounter := hb
    rw [if_pos hb]
    change ((s.createBufferLogger t).1.fetchAndAdd.1.addBufferLogger
      s.manager.flushLoggerAssignCounter s.bufferLoggers.length).bind _ = _
    rw [State.addBufferLogger, if_pos hdrawn, Option.bind_some]
    change (State.setFlushLoggerId _ _ _).bind _ = _
    rw [State.setFlushLoggerId, if_neg, Option.bind_some]
    · simp only [State.createBufferLogger, State.fetchAndAdd, modify_concat_length]
      rfl
    · exact hb.1
  · have hdrawn : ¬(s.createBufferLogger t).1.fetchAndAdd.1.manager.InBounds
        s.manager.flushLoggerAssignCounter := hb
    rw [if_neg hb]
    change ((s.createBufferLogger t).1.fetchAndAdd.1.addBufferLogger
      s.manager.flushLoggerAssignCounter s.bufferLoggers.length).bind _ = _
    rw [State.addBufferLogger, if_neg hdrawn, Option.bind_none]

theorem step_getBufferLogger_of_some (h : s.bufferLogger t = some p) :
    step s (.getBufferLogger t) = some s := by
  rw [step, State.getBufferLogger_of_some h, Option.map_some]

theorem step_getBufferLogger_of_none (h : s.bufferLogger t = none)
    (hb : s.manager.InBounds s.manager.flushLoggerAssignCounter) :
    step s (.getBufferLogger t) = some (s.assigned t) := by
  rw [step, State.getBufferLogger_of_none h, if_pos hb, Option.map_some]

/-- A `GetBufferLogger` that returns did nothing, or was a first call. -/
theorem step_getBufferLogger (h : step s (.getBufferLogger t) = some s') :
    s' = s ∧ (s.bufferLogger t).isSome ∨ s' = s.assigned t ∧ s.bufferLogger t = none := by
  cases hp : s.bufferLogger t with
  | some p =>
    rw [step_getBufferLogger_of_some hp, Option.some_inj] at h
    exact .inl ⟨h.symm, rfl⟩
  | none =>
    rw [step, State.getBufferLogger_of_none hp] at h
    by_cases hb : s.manager.InBounds s.manager.flushLoggerAssignCounter
    · rw [if_pos hb, Option.map_some, Option.some_inj] at h
      exact .inr ⟨h.symm, rfl⟩
    · rw [if_neg hb] at h
      cases h

end Calls

end LogManager

end FulgurLogging
