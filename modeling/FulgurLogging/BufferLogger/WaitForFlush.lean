import FulgurLogging.Lib.Machine
import FulgurLogging.Lib.Monitor
import Mathlib.Order.Lattice
import Mathlib.Order.Nat

/-!
# Waiting for a flush

Committing threads call `WaitForFlush` on one buffer logger with the id of their transaction, and
sleep on `flush_notify_cv` until `max_flushed_commit_id` has reached it. The flush thread raises
`max_flushed_commit_id` without holding `flush_notify_mutex` and then calls `FlushLoggerFlushed`,
which takes the mutex and notifies all.

The value is published outside the mutex, but ahead of a section that starts with a notification,
so the monitor's rules apply: a sleeper whose id is covered is owed a wake-up by the flush thread.
Once `FlushLoggerFlushed` has finished, nobody owes one.

Ids are only compared, so their type is any linear order.
-/

namespace FulgurLogging

open Transition

namespace BufferLogger

/-- The threads at one buffer logger. -/
inductive Thread (T : Type*)
  | flush
  | committing (t : T)
  deriving DecidableEq

variable {T ι : Type*} [LinearOrder ι]

/-- Where the threads stand, with `max_flushed_commit_id` as the value and `flush_notify_mutex` as
the mutex. -/
abbrev State (T ι : Type*) := Monitor.State (Thread T) ι ι

/-- The loop of `WaitForFlush` ends unless
`this->max_flushed_commit_id < cur_commit_txn_id`. -/
def covered (maxFlushedCommitId curCommitTxnId : ι) : Bool :=
  !decide (maxFlushedCommitId < curCommitTxnId)

/-- `FlushLoggerFlushed`, what it does under the mutex. -/
def flushLoggerFlushed : List (Monitor.Op ι) := [.notifyAll]

inductive Action (T ι : Type*)
  /-- A call of `WaitForFlush`. -/
  | waitForFlush (t : T) (curCommitTxnId : ι)
  /-- The flush thread raises `max_flushed_commit_id` and calls `FlushLoggerFlushed`. -/
  | raise (v : ι)
  | advance (th : Thread T)
  /-- A spurious wake-up. -/
  | wake (t : T)

def init (T : Type*) (maxFlushedCommitId : ι) : State T ι := Monitor.init _ _ maxFlushedCommitId

/-- The action as one of the monitor. -/
def Action.onMonitor : Action T ι → Monitor.Action (Thread T) ι ι
  | waitForFlush t c => .wait (.committing t) c
  | raise v => .publish .flush v flushLoggerFlushed
  | advance th => .advance th
  | wake t => .wake (.committing t)

/-- `max_flushed_commit_id` is never lowered. -/
def rises (s : State T ι) : Action T ι → Bool
  | .raise v => s.value ≤ v
  | _ => true

def step [DecidableEq T] (s : State T ι) (a : Action T ι) : Option (State T ι) :=
  if rises s a then Monitor.step covered s a.onMonitor else none

def machine (T ι : Type*) [DecidableEq T] [LinearOrder ι] : Machine (State T ι) (Action T ι) :=
  ⟨step⟩

@[simp] theorem covered_eq_true_iff {m c : ι} : covered m c = true ↔ c ≤ m := by
  rw [covered, Bool.not_eq_true', decide_eq_false_iff_not, not_lt]

@[simp] theorem covered_eq_false_iff {m c : ι} : covered m c = false ↔ m < c := by
  rw [covered, Bool.not_eq_false', decide_eq_true_iff]

/-- A raise keeps what is covered covered, and is followed by a notification. -/
theorem orderly_of_rises {s : State T ι} {a : Action T ι} (h : rises s a = true) :
    Monitor.Orderly covered s a.onMonitor := by
  cases a with
  | raise v =>
    refine ⟨⟨[], rfl, trivial⟩, fun c hc ↦ ?_⟩
    rw [covered_eq_true_iff] at hc ⊢
    exact le_trans hc (of_decide_eq_true h)
  | waitForFlush t c => trivial
  | advance th => trivial
  | wake t => trivial

/-! ## The invariant -/

/-- The monitor is sound, and committing threads never notify. -/
structure Attended (s : State T ι) : Prop where
  sound : Monitor.Sound covered s
  committing : ∀ t, (s.point (.committing t)).ops = []

theorem attended_init (v : ι) : Attended (init T v) := ⟨Monitor.sound_init, fun _ ↦ rfl⟩

namespace Attended

variable {s s' : State T ι} {t : T} {c : ι}

/-- Only the flush thread can owe a notification, and between two rounds it does not. -/
theorem owes_eq_false (h : Attended s) (hflush : s.point .flush = .idle) (th : Thread T) :
    (s.point th).owes = false := by
  cases th with
  | flush =>
    rw [hflush]
    rfl
  | committing t => rw [Monitor.Point.owes, h.committing t]

variable [DecidableEq T]

/-- **The step lemma.** -/
theorem step (h : Attended s) {a : Action T ι} (hstep : BufferLogger.step s a = some s') :
    Attended s' := by
  rw [BufferLogger.step] at hstep
  split at hstep
  next hrises =>
    refine ⟨h.sound.step (orderly_of_rises hrises) hstep, fun t ↦ ?_⟩
    have hsuffix : (s'.point (.committing t)).ops <:+ (s.point (.committing t)).ops := by
      refine Monitor.ops_step hstep ?_ ?_ <;> cases a <;> exact nofun
    rw [h.committing t] at hsuffix
    exact List.suffix_nil.mp hsuffix
  next => cases hstep

/-- **The run lemma.** -/
theorem run {as : List (Action T ι)} (h : Attended s) (hrun : (machine T ι).run s as = some s') :
    Attended s' :=
  Machine.Preserves.run (fun _ _ _ hI hstep ↦ hI.step hstep) h hrun

end Attended

/-- **No committing thread is left asleep.** Whatever the interleaving, a call of `WaitForFlush`
returns only with its id covered by `max_flushed_commit_id`; and while the flush thread is between
`FlushLoggerFlushed` and its next raise, no thread whose id is covered is asleep. -/
theorem no_wakeup_lost [DecidableEq T] {v : ι} {as : List (Action T ι)} {s : State T ι}
    (hrun : (machine T ι).run (init T v) as = some s) :
    (∀ t c, s.point (.committing t) = .leaving c → c ≤ s.value) ∧
      (s.point .flush = .idle → ∀ t c, s.point (.committing t) = .asleep c → s.value < c) := by
  have hI := (attended_init v).run hrun
  refine ⟨fun t c hp ↦ ?_, fun hflush t c hp ↦ ?_⟩
  · exact covered_eq_true_iff.mp (hI.sound.leaving hp).2
  · exact covered_eq_false_iff.mp (hI.sound.asleep (hI.owes_eq_false hflush) hp)

/-- The id is raised after the thread has tested it and before the thread sleeps. -/
def raisedBetween : List (Action Unit ℕ) :=
  [.waitForFlush () 5, .advance (.committing ()), .advance (.committing ()), .raise 5,
    .advance (.committing ()), .advance .flush, .advance .flush, .advance .flush,
    .advance (.committing ()), .advance (.committing ())]

theorem no_wakeup_lost_raisedBetween :
    ∃ s, (machine Unit ℕ).run (init Unit 0) raisedBetween = some s ∧
      s.point (.committing ()) = .leaving 5 ∧ 5 ≤ s.value :=
  ⟨_, rfl, rfl, (@no_wakeup_lost Unit ℕ _ _ 0 raisedBetween _ rfl).1 () 5 rfl⟩

end BufferLogger

end FulgurLogging
