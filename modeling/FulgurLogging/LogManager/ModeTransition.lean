import FulgurLogging.Lib.Machine
import FulgurLogging.Lib.Monitor

/-!
# Waiting for a mode

Threads call `SetLoggingStatus` and `WaitForModeTransition` on the log manager. The status is only
stored under `logging_status_mutex`, and every store is followed by a notification of all, before
the mutex is released. A status may be overtaken by the next before a waiter has seen it, and the
waiter then goes back to sleep.

Sections that start with their store owe a notification in between only, so that nobody owes one
while the mutex is free.

Statuses are only compared. Their type is arbitrary, since the value of one of the enumerators is
not in the repository.
-/

namespace FulgurLogging

open Transition

/-- Which mode the logging is in. -/
inductive LoggingStatusType
  | invalid | standby | recovery | logging | terminate | sleep
deriving DecidableEq

namespace ModeTransition

variable {T S : Type*} [DecidableEq S]

/-- Where the threads stand, with `logging_status` as the value and `logging_status_mutex` as the
mutex. -/
abbrev State (T S : Type*) := Monitor.State T S S

/-- The loop of `WaitForModeTransition` ends unless `logging_status != this->logging_status`. -/
def reached (loggingStatus target : S) : Bool := !decide (target ≠ loggingStatus)

/-- `SetLoggingStatus`, what it does under the mutex. -/
def setLoggingStatus (loggingStatus : S) : List (Monitor.Op S) := [.store loggingStatus, .notifyAll]

inductive Action (T S : Type*)
  | waitForModeTransition (t : T) (target : S)
  | setLoggingStatus (t : T) (loggingStatus : S)
  | advance (t : T)
  /-- A spurious wake-up. -/
  | wake (t : T)

/-- The action as one of the monitor. -/
def Action.onMonitor : Action T S → Monitor.Action T S S
  | waitForModeTransition t target => .wait t target
  | setLoggingStatus t loggingStatus => .lock t (ModeTransition.setLoggingStatus loggingStatus)
  | advance t => .advance t
  | wake t => .wake t

def init (T : Type*) (loggingStatus : S) : State T S := Monitor.init _ _ loggingStatus

def step [DecidableEq T] (s : State T S) (a : Action T S) : Option (State T S) :=
  Monitor.step reached s a.onMonitor

def machine (T S : Type*) [DecidableEq T] [DecidableEq S] : Machine (State T S) (Action T S) :=
  ⟨step⟩

@[simp] theorem reached_eq_true_iff {v target : S} : reached v target = true ↔ v = target := by
  rw [reached, Bool.not_eq_true', decide_eq_false_iff_not, not_not, eq_comm]

theorem reached_eq_false_iff {v target : S} : reached v target = false ↔ v ≠ target := by
  rw [← Bool.not_eq_true, reached_eq_true_iff]

/-- A store is followed at once by its notification. -/
theorem orderly (s : State T S) (a : Action T S) : Monitor.Orderly reached s a.onMonitor := by
  cases a <;> trivial

/-! ## The invariant -/

/-- The monitor is sound, and a thread about to take the mutex for a section is about to call
`SetLoggingStatus`. -/
structure Attended (s : State T S) : Prop where
  sound : Monitor.Sound reached s
  locking : ∀ t ops, s.point t = .locking ops → ∃ v, ops = setLoggingStatus v

theorem attended_init (v : S) : Attended (init T v) := ⟨Monitor.sound_init, nofun⟩

namespace Attended

variable {s s' : State T S}

/-- While the mutex is free, nobody owes a notification. -/
theorem owes_eq_false (h : Attended s) (hfree : s.owner = none) (t : T) :
    (s.point t).owes = false := by
  cases hp : s.point t with
  | locking ops =>
    obtain ⟨v, rfl⟩ := h.locking t ops hp
    rfl
  | working ops =>
    have howner : s.owner = some t := h.sound.guarded.owner_eq (t := t) (by rw [hp]; rfl)
    rw [hfree] at howner
    cases howner
  | _ => rfl

variable [DecidableEq T]

/-- **The step lemma.** -/
theorem step (h : Attended s) {a : Action T S} (hstep : ModeTransition.step s a = some s') :
    Attended s' := by
  refine ⟨h.sound.step (orderly s a) hstep, fun u ops hu ↦ ?_⟩
  rcases Monitor.locking_step hstep hu with hp | ha | ⟨v, ha⟩
  · exact h.locking u ops hp
  · cases a with
    | setLoggingStatus t v =>
      obtain ⟨-, rfl⟩ := Monitor.Action.lock.inj ha
      exact ⟨v, rfl⟩
    | _ => cases ha
  · cases a <;> cases ha

/-- **The run lemma.** -/
theorem run {as : List (Action T S)} (h : Attended s) (hrun : (machine T S).run s as = some s') :
    Attended s' :=
  Machine.Preserves.run (fun _ _ _ hI hstep ↦ hI.step hstep) h hrun

end Attended

/-- **Mode transitions lose no wake-up.** Whatever the interleaving, a call of
`WaitForModeTransition` leaves its loop only with the mutex held and the status at its target; and
while the mutex is free, no thread is asleep with the status at its target. -/
theorem transition_loses_no_wakeup [DecidableEq T] {v : S} {as : List (Action T S)} {s : State T S}
    (hrun : (machine T S).run (init T v) as = some s) :
    (∀ t target, s.point t = .leaving target → s.owner = some t ∧ s.value = target) ∧
      (s.owner = none → ∀ t target, s.point t = .asleep target → s.value ≠ target) := by
  have hI := (attended_init v).run hrun
  refine ⟨fun t target hp ↦ ?_, fun hfree t target hp ↦ ?_⟩
  · obtain ⟨howner, hready⟩ := hI.sound.leaving hp
    exact ⟨howner, reached_eq_true_iff.mp hready⟩
  · exact reached_eq_false_iff.mp (hI.sound.asleep (hI.owes_eq_false hfree) hp)

/-- A waiter for one mode is notified, and the mode has changed again before it runs. -/
def overtaken : List (Action ℕ LoggingStatusType) :=
  [.waitForModeTransition 0 .logging, .advance 0, .advance 0, .advance 0,
    .setLoggingStatus 1 .logging, .advance 1, .advance 1, .advance 1, .advance 1,
    .setLoggingStatus 1 .sleep, .advance 1, .advance 1, .advance 1, .advance 1,
    .advance 0, .advance 0, .advance 0]

theorem transition_loses_no_wakeup_overtaken :
    ∃ s, (machine ℕ LoggingStatusType).run (init ℕ .invalid) overtaken = some s ∧
      s.point 0 = .asleep .logging ∧ s.value ≠ .logging := by
  have hrun : (machine ℕ LoggingStatusType).run (init ℕ .invalid) overtaken =
    some _ := rfl
  exact ⟨_, hrun, rfl, (transition_loses_no_wakeup hrun).2 rfl 0 .logging rfl⟩

end ModeTransition

end FulgurLogging
