import FulgurLogging.BufferLogger.WaitForFlush
import Mathlib.Data.List.Pairwise
import Mathlib.Data.List.Basic

/-!
# Commits and the disk

One thread repeats `Log` with the id of a commit record and then `WaitForFlush` with that id. The
flush thread repeats `GetLogBuffers`, the disk write, and `FlushLoggerFlushed`. `GetLogBuffers`
takes the records logged so far and already sets `max_flushed_commit_id` to `max_seen_txn_id`,
before anything is on disk.

A record is in the log buffers, taken by the flush thread, or on disk, in the order of the ids.
What `max_flushed_commit_id` covers is no longer in the log buffers, and that is all a test of
`WaitForFlush` learns: the record may be taken and not written. `Landed` rules this out for the
tests that end a loop, and with it every return finds its record on disk. A test that fails it is
followed by a return of a commit that is not on disk.
-/

namespace FulgurLogging

open Transition

namespace BufferLogger

namespace FlushCycle

variable {ι : Type*} [LinearOrder ι]

/-- The committing thread. -/
abbrev logger : Thread Unit := .committing ()

structure State (ι : Type*) where
  /-- The threads, with `max_flushed_commit_id` as the value. -/
  monitor : BufferLogger.State Unit ι
  /-- The ids of the records in the log buffers, the oldest first. -/
  logged : List ι
  /-- `max_seen_txn_id`. -/
  maxSeenTxnId : ι
  /-- `prepared_buffers_for_flush`, taken and not written. -/
  prepared : List ι
  /-- What has been written to disk. -/
  disk : List ι
  /-- Whether the flush thread is between `GetLogBuffers` and its disk write. -/
  writing : Bool

inductive Action (ι : Type*)
  /-- `Log`, after which the thread calls `WaitForFlush`. -/
  | log (c : ι)
  | getLogBuffers
  /-- The disk write, after which the thread calls `FlushLoggerFlushed`. -/
  | write
  | advance (th : Thread Unit)
  /-- A spurious wake-up. -/
  | wake

/-- Nothing logged; both ids have their initial value. -/
def init (v : ι) : State ι := ⟨BufferLogger.init Unit v, [], v, [], [], false⟩

def step (s : State ι) : Action ι → Option (State ι)
  | .log c =>
    if s.maxSeenTxnId < c then
      (Monitor.step covered s.monitor (.wait logger c)).map fun m ↦
        { s with monitor := m, logged := s.logged ++ [c], maxSeenTxnId := c }
    else none
  | .getLogBuffers =>
    match s.monitor.point .flush, s.writing with
    | .idle, false =>
      some { s with
        monitor := { s.monitor with value := s.maxSeenTxnId }
        logged := []
        prepared := s.prepared ++ s.logged
        writing := true }
    | _, _ => none
  | .write =>
    if s.writing then
      (Monitor.step covered s.monitor (.lock .flush flushLoggerFlushed)).map fun m ↦
        { s with monitor := m, prepared := [], disk := s.disk ++ s.prepared, writing := false }
    else none
  | .advance th =>
    (Monitor.step covered s.monitor (.advance th)).map fun m ↦ { s with monitor := m }
  | .wake => (Monitor.step covered s.monitor (.wake logger)).map fun m ↦ { s with monitor := m }

def machine (ι : Type*) [LinearOrder ι] : Machine (State ι) (Action ι) := ⟨step⟩

/-- All records, in the order in which they were logged. -/
def State.records (s : State ι) : List ι := s.disk ++ s.prepared ++ s.logged

/-- A test that ends the loop of `WaitForFlush` is not made while the record is taken and not
written. -/
def Landed (s : State ι) : Action ι → Prop
  | .advance (.committing _) =>
    ∀ c ∈ (s.monitor.point logger).tested, covered s.monitor.value c → c ∉ s.prepared
  | _ => True

instance (s : State ι) : ∀ a, Decidable (Landed s a)
  | .advance (.committing _) => inferInstanceAs (Decidable
    (∀ c ∈ (s.monitor.point logger).tested, covered s.monitor.value c → c ∉ s.prepared))
  | .advance .flush | .log _ | .getLogBuffers | .write | .wake => isTrue trivial

/-- A commit whose `WaitForFlush` is past its loop is on disk. -/
def Durable (s : State ι) : Prop := ∀ c, s.monitor.point logger = .leaving c → c ∈ s.disk

/-! ## The records -/

/-- The ids increase, what is in the log buffers is not covered, and the commit waited for is one
of the records. -/
structure Filed (s : State ι) : Prop where
  sorted : s.records.Pairwise (· < ·)
  seen : ∀ c ∈ s.records, c ≤ s.maxSeenTxnId
  flushed : s.monitor.value ≤ s.maxSeenTxnId
  fresh : ∀ c ∈ s.logged, s.monitor.value < c
  request : ∀ c, (s.monitor.point logger).request = some c → c ∈ s.records
  quiet : ∀ th v, .store v ∉ (s.monitor.point th).ops

theorem filed_init (v : ι) : Filed (init v) :=
  ⟨List.Pairwise.nil, nofun, le_refl v, nofun, nofun, fun _ _ ↦ List.not_mem_nil⟩

namespace Filed

variable {s s' : State ι} {c : ι}

/-- What is covered has left the log buffers. -/
theorem mem_of_covered (h : Filed s) (hc : c ∈ s.records) (hcov : covered s.monitor.value c) :
    c ∈ s.disk ∨ c ∈ s.prepared := by
  rw [State.records, List.mem_append, List.mem_append] at hc
  refine hc.resolve_right fun hlogged ↦ ?_
  exact absurd (h.fresh c hlogged) (not_lt_of_ge (covered_eq_true_iff.mp hcov))

/-- What is taken is not on disk yet. -/
theorem not_mem_disk (h : Filed s) (hc : c ∈ s.prepared) : c ∉ s.disk := by
  intro hdisk
  have hsorted := h.sorted
  rw [State.records, List.append_assoc, List.pairwise_append] at hsorted
  exact lt_irrefl c (hsorted.2.2 c hdisk c (List.mem_append_left _ hc))

/-- The threads go on, without a new request or a store. -/
theorem monitor (h : Filed s) {m : BufferLogger.State Unit ι} (hvalue : m.value = s.monitor.value)
    (hrequest : ∀ c, (m.point logger).request = some c →
      (s.monitor.point logger).request = some c)
    (hops : ∀ th, (m.point th).ops <:+ (s.monitor.point th).ops) :
    Filed { s with monitor := m } := by
  refine ⟨h.sorted, h.seen, ?_, ?_, fun c hc ↦ h.request c (hrequest c hc), fun th v hv ↦ ?_⟩
  · change m.value ≤ _
    rw [hvalue]
    exact h.flushed
  · change ∀ c ∈ s.logged, m.value < c
    rw [hvalue]
    exact h.fresh
  · exact h.quiet th v ((hops th).subset hv)

theorem log (h : Filed s) (hc : s.maxSeenTxnId < c) :
    Filed { s with
      monitor := s.monitor.goto logger (.entering c)
      logged := s.logged ++ [c]
      maxSeenTxnId := c } := by
  have hrecords : ∀ {d}, d ∈ s.disk ++ s.prepared ++ (s.logged ++ [c]) ↔ d ∈ s.records ∨ d = c := by
    intro d
    rw [← List.append_assoc, List.mem_append, List.mem_singleton]
    rfl
  refine ⟨?_, fun d hd ↦ ?_, h.flushed.trans hc.le, fun d hd ↦ ?_, fun d hd ↦ ?_, fun th v ↦ ?_⟩
  · change (s.disk ++ s.prepared ++ (s.logged ++ [c])).Pairwise (· < ·)
    rw [← List.append_assoc, List.pairwise_append]
    refine ⟨h.sorted, List.pairwise_singleton _ _, fun d hd e he ↦ ?_⟩
    rw [List.mem_singleton] at he
    exact he ▸ (h.seen d hd).trans_lt hc
  · rcases hrecords.mp hd with hd | rfl
    · exact (h.seen d hd).trans hc.le
    · exact le_refl d
  · rcases List.mem_append.mp hd with hd | hd
    · exact h.fresh d hd
    · rw [List.mem_singleton.mp hd]
      exact h.flushed.trans_lt hc
  · rw [Monitor.goto_self] at hd
    cases hd
    exact hrecords.mpr (.inr rfl)
  · exact fun hv ↦ h.quiet th v ((Monitor.ops_goto rfl th).subset hv)

theorem getLogBuffers (h : Filed s) :
    Filed { s with
      monitor := { s.monitor with value := s.maxSeenTxnId }
      logged := []
      prepared := s.prepared ++ s.logged
      writing := true } := by
  have hrecords : s.disk ++ (s.prepared ++ s.logged) ++ [] = s.records := by
    rw [List.append_nil, ← List.append_assoc, State.records]
  refine ⟨?_, ?_, le_refl _, nofun, ?_, h.quiet⟩ <;> rw [State.records, hrecords]
  · exact h.sorted
  · exact h.seen
  · exact h.request

theorem write (h : Filed s) {m : BufferLogger.State Unit ι} (hvalue : m.value = s.monitor.value)
    (hpoint : m.point logger = s.monitor.point logger)
    (hquiet : ∀ th v, .store v ∉ (m.point th).ops) :
    Filed { s with
      monitor := m, prepared := [], disk := s.disk ++ s.prepared, writing := false } := by
  have hrecords : s.disk ++ s.prepared ++ [] ++ s.logged = s.records := by
    rw [List.append_nil, State.records]
  refine ⟨?_, ?_, ?_, ?_, ?_, hquiet⟩
  · rw [State.records, hrecords]
    exact h.sorted
  · rw [State.records, hrecords]
    exact h.seen
  · exact hvalue ▸ h.flushed
  · exact fun d hd ↦ hvalue ▸ h.fresh d hd
  · rw [State.records, hrecords, hpoint]
    exact h.request

end Filed

/-! ## Steps -/

section Step

variable {s s' : State ι} {c : ι}

theorem step_log (h : step s (.log c) = some s') :
    s.maxSeenTxnId < c ∧ s' = { s with
      monitor := s.monitor.goto logger (.entering c)
      logged := s.logged ++ [c]
      maxSeenTxnId := c } := by
  rw [step] at h
  split at h
  next hc =>
    obtain ⟨m, hm, rfl⟩ := Option.map_eq_some_iff.mp h
    obtain ⟨-, rfl⟩ := Monitor.step_wait hm
    exact ⟨hc, rfl⟩
  next => cases h

theorem step_getLogBuffers (h : step s .getLogBuffers = some s') :
    s' = { s with
      monitor := { s.monitor with value := s.maxSeenTxnId }
      logged := []
      prepared := s.prepared ++ s.logged
      writing := true } := by
  rw [step] at h
  split at h
  next => exact (Option.some_inj.mp h).symm
  next => cases h

theorem step_write (h : step s .write = some s') :
    s' = { s with
      monitor := s.monitor.goto .flush (.locking flushLoggerFlushed)
      prepared := []
      disk := s.disk ++ s.prepared
      writing := false } := by
  rw [step] at h
  split at h
  next =>
    obtain ⟨m, hm, rfl⟩ := Option.map_eq_some_iff.mp h
    obtain ⟨-, rfl⟩ := Monitor.step_lock hm
    rfl
  next => cases h

theorem step_advance {th : Thread Unit} (h : step s (.advance th) = some s') :
    ∃ m, Monitor.advance covered s.monitor th = some m ∧ s' = { s with monitor := m } := by
  obtain ⟨m, hm, rfl⟩ := Option.map_eq_some_iff.mp h
  exact ⟨m, hm, rfl⟩

theorem step_wake (h : step s .wake = some s') :
    ∃ c, s.monitor.point logger = .asleep c ∧
      s' = { s with monitor := s.monitor.goto logger (.woken c) } := by
  obtain ⟨m, hm, rfl⟩ := Option.map_eq_some_iff.mp h
  obtain ⟨c, hp, rfl⟩ := Monitor.step_wake hm
  exact ⟨c, hp, rfl⟩

/-- **The step lemma**, for the records. -/
theorem Filed.step (h : Filed s) {a : Action ι} (hstep : step s a = some s') : Filed s' := by
  cases a with
  | log c =>
    obtain ⟨hc, rfl⟩ := step_log hstep
    exact h.log hc
  | getLogBuffers =>
    rw [step_getLogBuffers hstep]
    exact h.getLogBuffers
  | write =>
    rw [step_write hstep]
    refine h.write rfl (Monitor.goto_of_ne nofun) fun th v hv ↦ ?_
    rcases Monitor.goto_point th with hth | ⟨-, hth⟩ <;> rw [hth] at hv
    · exact h.quiet th v hv
    · cases hv with
      | tail _ hv => cases hv
  | advance th =>
    obtain ⟨m, hm, rfl⟩ := step_advance hstep
    exact h.monitor (Monitor.advance_value hm (h.quiet th)) (fun c ↦ Monitor.advance_request hm)
      (Monitor.ops_advance hm)
  | wake =>
    obtain ⟨c, hp, rfl⟩ := step_wake hstep
    refine h.monitor rfl (fun d hd ↦ ?_) (Monitor.ops_goto rfl)
    rw [Monitor.goto_self] at hd
    rw [hp]
    exact hd

/-- **The step lemma**, for the disk. -/
theorem Durable.step (h : Durable s) (hfiled : Filed s) {a : Action ι} (ha : Landed s a)
    (hstep : step s a = some s') : Durable s' := by
  intro c hc
  cases a with
  | log d =>
    obtain ⟨-, rfl⟩ := step_log hstep
    rw [Monitor.goto_self] at hc
    cases hc
  | getLogBuffers =>
    rw [step_getLogBuffers hstep] at hc ⊢
    exact h c hc
  | write =>
    rw [step_write hstep] at hc ⊢
    have hpoint : s.monitor.point logger = .leaving c :=
      (Monitor.goto_of_ne (u := logger) (by decide)).symm.trans hc
    exact List.mem_append_left _ (h c hpoint)
  | wake =>
    obtain ⟨d, -, rfl⟩ := step_wake hstep
    rw [Monitor.goto_self] at hc
    cases hc
  | advance th =>
    obtain ⟨m, hm, rfl⟩ := step_advance hstep
    rcases Monitor.advance_leaving hm hc with hleft | ⟨rfl, htesting, hcov⟩
    · exact h c hleft
    · have hmem : c ∈ s.records := hfiled.request c (by rw [htesting]; rfl)
      refine (hfiled.mem_of_covered hmem hcov).resolve_right (ha c ?_ hcov)
      rw [htesting]
      rfl

/-- A test that ends the loop too early is followed by a return. -/
theorem Filed.exists_return (h : Filed s) {a : Action ι} (ha : ¬ Landed s a)
    (hstep : FlushCycle.step s a = some s') :
    ∃ c s'', s'.monitor.point logger = .leaving c ∧ c ∉ s'.disk ∧
      FlushCycle.step s' (.advance logger) = some s'' ∧ s''.monitor.point logger = .idle ∧
      c ∉ s''.disk := by
  cases a with
  | log _ | getLogBuffers | write | wake => exact absurd trivial ha
  | advance th =>
    cases th with
    | flush => exact absurd trivial ha
    | committing t =>
      rw [Landed] at ha
      push Not at ha
      obtain ⟨c, htested, hcov, hprepared⟩ := ha
      have hp : s.monitor.point logger = .testing c := by
        cases hp : s.monitor.point logger <;> rw [hp] at htested <;> cases htested
        rfl
      obtain ⟨m, hm, rfl⟩ := step_advance hstep
      change Monitor.advance covered s.monitor logger = some m at hm
      rw [Monitor.advance, hp] at hm
      simp only [hcov, if_true, Option.some_inj] at hm
      subst hm
      have hleaving : (s.monitor.goto logger (.leaving c)).point logger = .leaving c :=
        Monitor.goto_self
      have hreturn : Monitor.advance covered (s.monitor.goto logger (.leaving c)) logger =
          some ((s.monitor.goto logger (.leaving c)).exit logger .idle) := by
        rw [Monitor.advance, hleaving]
      refine ⟨c, { s with monitor := (s.monitor.goto logger (.leaving c)).exit logger .idle },
        hleaving, h.not_mem_disk hprepared, ?_, ?_, h.not_mem_disk hprepared⟩
      · simp only [FlushCycle.step, Monitor.step, hreturn, Option.map_some]
      · exact Monitor.exit_self

end Step

/-- **A commit is acknowledged on disk, unless its record is in flight.** In every run in which no
test ends the loop of `WaitForFlush` while the record is taken and not written, a `WaitForFlush`
past its loop, and so one that returns, has its record on disk. From there a test that ends the
loop while the record is in flight is followed by a return with the record not on disk. -/
theorem durable_while_landed {v : ι} {as : List (Action ι)} {s : State ι}
    (hrun : (machine ι).run (init v) as = some s)
    (hlanded : (machine ι).Along Landed (init v) as) :
    Durable s ∧ ∀ a s', ¬ Landed s a → step s a = some s' →
      ∃ c s'', s'.monitor.point logger = .leaving c ∧ c ∉ s'.disk ∧
        step s' (.advance logger) = some s'' ∧ s''.monitor.point logger = .idle ∧ c ∉ s''.disk := by
  have hI : Filed s ∧ Durable s := by
    refine Machine.PreservesUnder.run (I := fun s ↦ Filed s ∧ Durable s) ?_ ⟨filed_init v, nofun⟩
      hlanded hrun
    exact fun s s' a hI ha hstep ↦ ⟨hI.1.step hstep, hI.2.step hI.1 ha hstep⟩
  exact ⟨hI.2, fun a s' ↦ hI.1.exists_return⟩

/-- A whole round: the commit is logged, written, and its thread woken. -/
def wholeRound : List (Action ℕ) :=
  [.log 1, .advance logger, .advance logger, .advance logger, .getLogBuffers, .write,
    .advance .flush, .advance .flush, .advance .flush, .advance logger, .advance logger]

theorem durable_wholeRound :
    ∃ s, (machine ℕ).run (init 0) wholeRound = some s ∧ s.monitor.point logger = .leaving 1 ∧
      Durable s :=
  ⟨_, rfl, rfl, (@durable_while_landed ℕ _ 0 wholeRound _ rfl (by decide)).1⟩

/-- `WaitForFlush` runs through between `GetLogBuffers` and the disk write. -/
def early : List (Action ℕ) := [.log 1, .getLogBuffers, .advance logger, .advance logger]

/-- It returns with its record taken and the disk empty. -/
theorem early_not_durable :
    ∃ s s', (machine ℕ).run (init 0) early = some s ∧ s.monitor.point logger = .leaving 1 ∧
      step s (.advance logger) = some s' ∧ s'.monitor.point logger = .idle ∧ s'.disk = [] ∧
      ¬ Durable s :=
  ⟨_, _, rfl, rfl, rfl, rfl, rfl, fun h ↦ absurd (h 1 rfl) List.not_mem_nil⟩

end FlushCycle

end BufferLogger

end FulgurLogging
