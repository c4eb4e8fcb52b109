import FulgurLogging.LogManager.GetBufferLogger
import Mathlib.Data.Fintype.Card
import Mathlib.Data.Int.CardIntervalMod

/-!
# The assignment of flush loggers, interleaved

Threads call `GetBufferLogger` at the same time. A first call creates the logger, draws a turn from
the counter, registers the logger with the flush logger of that turn and records its id, and
another thread may move in between. Threads register in another order than they draw.

What counts is the set of turns drawn. The threads that have drawn are kept as a list in the order
of their turns, next to the state; `Drawn`, `Registered` and `Labelled` say how far each of them
has come. With at most `2 ^ 32` threads no turn comes twice, since the conversion of a negative
`int` to `unsigned` undoes the wrap of the counter.

The index is unsigned and the id recorded is an `int`. From `2 ^ 31` on an index is recorded as a
negative id.
-/

namespace FulgurLogging

open Transition

namespace Assignment

open LogManager

/-- Where a thread stands. -/
inductive Point
  | idle
  /-- With a new logger, about to draw its turn. -/
  | drawing (p : ℕ)
  /-- With its turn, about to be registered. -/
  | registering (p : ℕ) (i : Int32)
  /-- About to record the id. -/
  | labelling (p : ℕ) (i : Int32)
deriving DecidableEq

/-- Whether the thread has drawn its turn and not been registered. -/
def Point.awaits : Point → Bool
  | registering _ _ => true
  | _ => false

/-- The logger that a thread in a first call has created. -/
def Point.pointer : Point → Option ℕ
  | idle => none
  | drawing p | registering p _ | labelling p _ => some p

/-- The turn that a thread in a first call has drawn. -/
def Point.turn : Point → Option Int32
  | idle | drawing _ => none
  | registering _ i | labelling _ i => some i

structure State (T : Type*) where
  shared : LogManager.State T
  point : T → Point
  /-- What the calls have returned, the oldest first. -/
  returned : List (T × ℕ)

inductive Action (T : Type*)
  /-- A call of `GetBufferLogger`, up to the creation of the logger if it is the first. -/
  | call (t : T)
  | advance (t : T)
deriving DecidableEq

/-- The list of one flush logger. -/
def bufferLoggersOf (m : LogManager) (j : ℕ) : List ℕ :=
  m.flushLoggers[j]?.elim [] FlushLogger.bufferLoggers

def init (T : Type*) (loggingType : LoggingType) (numFlushLoggers : UInt32) : State T :=
  ⟨ready T loggingType numFlushLoggers, fun _ ↦ .idle, []⟩

section Step

variable {T : Type*} [DecidableEq T]

def State.goto (s : State T) (t : T) (p : Point) : State T :=
  { s with point := Function.update s.point t p }

def step (s : State T) : Action T → Option (State T)
  | .call t =>
    match s.point t with
    | .idle =>
      match s.shared.bufferLogger t with
      -- a later call, which returns at once
      | some p => some { s with returned := s.returned ++ [(t, p)] }
      | none =>
        let (shared, p) := s.shared.createBufferLogger t
        some { s.goto t (.drawing p) with shared }
    | _ => none
  | .advance t =>
    match s.point t with
    | .idle => none
    | .drawing p =>
      let (shared, i) := s.shared.fetchAndAdd
      some { s.goto t (.registering p i) with shared }
    | .registering p i =>
      (s.shared.addBufferLogger i p).map fun shared ↦ { s.goto t (.labelling p i) with shared }
    | .labelling p i =>
      (s.shared.setFlushLoggerId i p).map fun shared ↦
        { s.goto t .idle with shared, returned := s.returned ++ [(t, p)] }

def machine (T : Type*) [DecidableEq T] : Machine (State T) (Action T) := ⟨step⟩

/-- What a step is. -/
inductive Moves (s : State T) (t : T) : State T → Prop
  | again (p : ℕ) : s.point t = .idle → s.shared.bufferLogger t = some p →
      Moves s t { s with returned := s.returned ++ [(t, p)] }
  | create : s.point t = .idle → s.shared.bufferLogger t = none →
      Moves s t { s.goto t (.drawing s.shared.bufferLoggers.length) with
        shared := (s.shared.createBufferLogger t).1 }
  | draw (p : ℕ) : s.point t = .drawing p →
      Moves s t { s.goto t (.registering p s.shared.manager.flushLoggerAssignCounter) with
        shared := s.shared.fetchAndAdd.1 }
  | register (p : ℕ) (i : Int32) : s.point t = .registering p i →
      Moves s t { s.goto t (.labelling p i) with
        shared := { s.shared with
          manager.flushLoggers := s.shared.manager.flushLoggers.modify
            (s.shared.manager.flushLoggerIndex i).toNat (·.addBufferLogger p) } }
  | label (p : ℕ) (i : Int32) : s.point t = .labelling p i →
      Moves s t { s.goto t .idle with
        shared := { s.shared with
          bufferLoggers := s.shared.bufferLoggers.modify p
            (·.setFlushLoggerId (s.shared.manager.flushLoggerIndex i).toInt32) }
        returned := s.returned ++ [(t, p)] }

theorem step_call {s s' : State T} {t : T} (h : step s (.call t) = some s') :
    s.point t = .idle ∧ Moves s t s' := by
  rw [step] at h
  split at h
  · next hidle =>
    refine ⟨hidle, ?_⟩
    split at h
    · next p hp =>
      obtain rfl := Option.some_inj.mp h
      exact .again p hidle hp
    · next hnone =>
      obtain rfl := Option.some_inj.mp h
      exact .create hidle hnone
  · cases h

theorem step_advance {s s' : State T} {t : T} (h : step s (.advance t) = some s') :
    s.point t ≠ .idle ∧ Moves s t s' := by
  rw [step] at h
  split at h
  · cases h
  · next p hp =>
    obtain rfl := Option.some_inj.mp h
    exact ⟨by simp [hp], .draw p hp⟩
  · next p i hp =>
    rw [LogManager.State.addBufferLogger] at h
    split_ifs at h
    · obtain rfl := Option.some_inj.mp h
      exact ⟨by simp [hp], .register p i hp⟩
    · cases h
  · next p i hp =>
    rw [LogManager.State.setFlushLoggerId] at h
    split_ifs at h
    · cases h
    · obtain rfl := Option.some_inj.mp h
      exact ⟨by simp [hp], .label p i hp⟩

theorem goto_self (s : State T) (t : T) (p : Point) : (s.goto t p).point t = p :=
  Function.update_self _ _ _

theorem goto_of_ne (s : State T) {t u : T} (h : u ≠ t) (p : Point) :
    (s.goto t p).point u = s.point u :=
  Function.update_of_ne h _ _

/-- What holds of the thread that moves, and of the others as before. -/
theorem forall_goto {q : T → Point → Prop} {s : State T} {t : T} {p : Point} (ht : q t p)
    (hother : ∀ u, u ≠ t → q u (s.point u)) (u : T) : q u ((s.goto t p).point u) :=
  (Function.forall_update_iff s.point q).mpr ⟨ht, hother⟩ u

end Step

/-! ## Every thread its own logger -/

/-- Threads do not share loggers, and what a call has returned is the thread's logger. -/
structure Owned {T : Type*} (s : State T) : Prop where
  lt : ∀ t p, s.shared.bufferLogger t = some p → p < s.shared.bufferLoggers.length
  inj : ∀ t u p, s.shared.bufferLogger t = some p → s.shared.bufferLogger u = some p → t = u
  point : ∀ t p, (s.point t).pointer = some p → s.shared.bufferLogger t = some p
  returned : ∀ t p, (t, p) ∈ s.returned → s.shared.bufferLogger t = some p

section Kept

variable {T : Type*} {s s' : State T} {t : T}

/-- The calls that have returned, with one more. -/
theorem Owned.returned_concat (h : Owned s) {p : ℕ} (hp : s.shared.bufferLogger t = some p)
    {u : T} {q : ℕ} (hu : (u, q) ∈ s.returned ++ [(t, p)]) : s.shared.bufferLogger u = some q := by
  rcases List.mem_append.mp hu with hu | hu
  · exact h.returned u q hu
  · obtain ⟨rfl, rfl⟩ := Prod.mk.inj (List.mem_singleton.mp hu)
    exact hp

variable [DecidableEq T]

theorem Owned.create (h : Owned s) (hnone : s.shared.bufferLogger t = none) :
    Owned { s.goto t (.drawing s.shared.bufferLoggers.length) with
      shared := (s.shared.createBufferLogger t).1 } := by
  have hlogger : ∀ u p, Function.update s.shared.bufferLogger t
      (some s.shared.bufferLoggers.length) u = some p →
      u = t ∧ p = s.shared.bufferLoggers.length ∨ u ≠ t ∧ s.shared.bufferLogger u = some p := by
    intro u p hu
    by_cases hut : u = t
    · rw [hut, Function.update_self, Option.some_inj] at hu
      exact .inl ⟨hut, hu.symm⟩
    · rw [Function.update_of_ne hut] at hu
      exact .inr ⟨hut, hu⟩
  have hkept : ∀ u p, s.shared.bufferLogger u = some p → Function.update s.shared.bufferLogger t
      (some s.shared.bufferLoggers.length) u = some p := by
    intro u p hu
    rw [Function.update_of_ne, hu]
    rintro rfl
    rw [hnone] at hu
    cases hu
  refine ⟨fun u p hu ↦ ?_, fun u v p hu hv ↦ ?_, ?_, fun u p hu ↦ hkept u p (h.returned u p hu)⟩
  · change p < (s.shared.bufferLoggers ++ [_]).length
    rw [List.length_append, List.length_singleton]
    rcases hlogger u p hu with ⟨-, rfl⟩ | ⟨-, hu⟩
    · exact Nat.lt_succ_self _
    · exact Nat.lt_succ_of_lt (h.lt u p hu)
  · rcases hlogger u p hu with ⟨rfl, rfl⟩ | ⟨-, hu'⟩ <;>
      rcases hlogger v _ hv with ⟨rfl, hp⟩ | ⟨-, hv'⟩
    · rfl
    · exact absurd (h.lt v _ hv') (Nat.lt_irrefl _)
    · exact absurd (hp ▸ h.lt u _ hu') (Nat.lt_irrefl _)
    · exact h.inj u v p hu' hv'
  · refine forall_goto (q := fun u point ↦ ∀ p, point.pointer = some p →
      Function.update s.shared.bufferLogger t _ u = some p) (fun p hp ↦ ?_) fun u _ p hp ↦ ?_
    · exact (Function.update_self t _ _).trans hp
    · exact hkept u p (h.point u p hp)

/-- A step that keeps the loggers' threads. -/
theorem Owned.goto (h : Owned s) {point : Point} {shared : LogManager.State T}
    {returned : List (T × ℕ)} (hlogger : shared.bufferLogger = s.shared.bufferLogger)
    (hlength : shared.bufferLoggers.length = s.shared.bufferLoggers.length)
    (hpoint : ∀ p, point.pointer = some p → s.shared.bufferLogger t = some p)
    (hreturned : ∀ u p, (u, p) ∈ returned → s.shared.bufferLogger u = some p) :
    Owned { s.goto t point with shared, returned } := by
  refine ⟨fun u p hu ↦ ?_, fun u v p hu hv ↦ ?_, ?_, fun u p hu ↦ ?_⟩
  · change shared.bufferLogger u = some p at hu
    rw [hlogger] at hu
    exact (h.lt u p hu).trans_eq hlength.symm
  · change shared.bufferLogger u = some p at hu
    change shared.bufferLogger v = some p at hv
    rw [hlogger] at hu hv
    exact h.inj u v p hu hv
  · refine forall_goto (q := fun u point ↦ ∀ p, point.pointer = some p →
      shared.bufferLogger u = some p) ?_ fun u _ ↦ ?_
    · rw [hlogger]
      exact hpoint
    · rw [hlogger]
      exact h.point u
  · change shared.bufferLogger u = some p
    rw [hlogger]
    exact hreturned u p hu

theorem Owned.moves (h : Owned s) (hmoves : Moves s t s') : Owned s' := by
  cases hmoves with
  | again p hidle hp => exact ⟨h.lt, h.inj, h.point, fun _ _ ↦ h.returned_concat hp⟩
  | create hidle hnone => exact h.create hnone
  | draw p hp =>
    refine h.goto rfl rfl (fun q hq ↦ ?_) h.returned
    exact h.point t q (by rw [hp]; exact hq)
  | register p i hp =>
    refine h.goto rfl rfl (fun q hq ↦ ?_) h.returned
    exact h.point t q (by rw [hp]; exact hq)
  | label p i hp =>
    refine h.goto rfl (List.length_modify ..) nofun fun _ _ ↦ h.returned_concat ?_
    exact h.point t p (by rw [hp]; rfl)

end Kept

/-! ## Every thread its own turn -/

/-- The threads that have drawn, in the order of their turns. -/
structure Drawn {T : Type*} (turns : List T) (s : State T) : Prop where
  nodup : turns.Nodup
  counter : s.shared.manager.flushLoggerAssignCounter = Int32.ofNat turns.length
  mem_iff : ∀ t, t ∈ turns ↔ s.shared.bufferLogger t ≠ none ∧ ∀ p, s.point t ≠ .drawing p
  turn : ∀ t i, (s.point t).turn = some i → ∃ k, turns[k]? = some t ∧ i = Int32.ofNat k

section Kept

variable {T : Type*} {s s' : State T} {t : T} {turns : List T}

theorem Drawn.notMem {p : ℕ} (h : Drawn turns s) (hp : s.point t = .drawing p) : t ∉ turns :=
  fun ht ↦ ((h.mem_iff t).mp ht).2 p hp

/-- A thread draws one turn only. -/
theorem Drawn.turn_inj (h : Drawn turns s) {k l : ℕ} (hk : turns[k]? = some t)
    (hl : turns[l]? = some t) : k = l :=
  (List.getElem?_inj (List.getElem?_eq_some_iff.mp hk).1 h.nodup).mp (hk.trans hl.symm)

theorem Drawn.notMem_of_none (h : Drawn turns s) (hnone : s.shared.bufferLogger t = none) :
    t ∉ turns :=
  fun ht ↦ ((h.mem_iff t).mp ht).1 hnone

variable [DecidableEq T]

/-- The turns drawn after a step of `t`. -/
def turnsAfter (turns : List T) (s : State T) (t : T) : List T :=
  match s.point t with
  | .drawing _ => turns ++ [t]
  | _ => turns

theorem Drawn.draw {p : ℕ} (howned : Owned s) (h : Drawn turns s) (hp : s.point t = .drawing p) :
    Drawn (turns ++ [t])
      { s.goto t (.registering p s.shared.manager.flushLoggerAssignCounter) with
        shared := s.shared.fetchAndAdd.1 } := by
  have hlogger : s.shared.bufferLogger t = some p := howned.point t p (by rw [hp]; rfl)
  refine ⟨?_, ?_, ?_, ?_⟩
  · exact List.nodup_append.mpr ⟨h.nodup, List.nodup_singleton t, fun u hu v hv heq ↦
      h.notMem hp (by rwa [heq, List.mem_singleton.mp hv] at hu)⟩
  · change s.shared.manager.flushLoggerAssignCounter + 1 = _
    rw [h.counter, List.length_append, List.length_singleton, Int32.ofNat_add]
    rfl
  · refine forall_goto (q := fun u point ↦ u ∈ turns ++ [t] ↔
      s.shared.bufferLogger u ≠ none ∧ ∀ p, point ≠ .drawing p) ?_ fun u hut ↦ ?_
    · rw [hlogger]
      exact iff_of_true List.mem_concat_self ⟨Option.some_ne_none p, nofun⟩
    · rw [List.mem_append, List.mem_singleton, or_iff_left hut]
      exact h.mem_iff u
  · refine forall_goto (q := fun u point ↦ ∀ i, point.turn = some i →
      ∃ k, (turns ++ [t])[k]? = some u ∧ i = Int32.ofNat k) (fun i hi ↦ ?_) fun u _ i hi ↦ ?_
    · refine ⟨turns.length, List.getElem?_concat_length, ?_⟩
      rw [← h.counter]
      exact (Option.some_inj.mp hi).symm
    · obtain ⟨k, hk, hi⟩ := h.turn u i hi
      exact ⟨k, (List.getElem?_append_left (List.getElem?_eq_some_iff.mp hk).1).trans hk, hi⟩

theorem Drawn.create (h : Drawn turns s) (hnone : s.shared.bufferLogger t = none) :
    Drawn turns { s.goto t (.drawing s.shared.bufferLoggers.length) with
      shared := (s.shared.createBufferLogger t).1 } := by
  refine ⟨h.nodup, h.counter, ?_, ?_⟩
  · refine forall_goto (q := fun u point ↦ u ∈ turns ↔
      Function.update s.shared.bufferLogger t _ u ≠ none ∧ ∀ p, point ≠ .drawing p) ?_
      fun u hut ↦ ?_
    · exact iff_of_false (h.notMem_of_none hnone) fun hu ↦ hu.2 _ rfl
    · rw [Function.update_of_ne hut]
      exact h.mem_iff u
  · exact forall_goto (q := fun u point ↦ ∀ i, point.turn = some i →
      ∃ k, turns[k]? = some u ∧ i = Int32.ofNat k) nofun fun u _ ↦ h.turn u

/-- A step behind the draw keeps the turns. -/
theorem Drawn.goto (h : Drawn turns s) {i : Int32} (hi : (s.point t).turn = some i)
    {point : Point} {shared : LogManager.State T} {returned : List (T × ℕ)}
    (hpoint : point.turn = some i ∨ point = .idle)
    (hlogger : shared.bufferLogger = s.shared.bufferLogger)
    (hcounter : shared.manager.flushLoggerAssignCounter =
      s.shared.manager.flushLoggerAssignCounter) :
    Drawn turns { s.goto t point with shared, returned } := by
  refine ⟨h.nodup, hcounter.trans h.counter, ?_, ?_⟩
  · refine forall_goto (q := fun u point ↦ u ∈ turns ↔
      shared.bufferLogger u ≠ none ∧ ∀ p, point ≠ .drawing p) ?_ fun u _ ↦ ?_
    · rw [hlogger, h.mem_iff]
      refine and_congr_right fun _ ↦ iff_of_true (fun p hp ↦ ?_) fun p hp ↦ ?_
      · rw [hp] at hi
        cases hi
      · rw [hp] at hpoint
        rcases hpoint with hc | hc <;> cases hc
    · rw [hlogger]
      exact h.mem_iff u
  · refine forall_goto (q := fun u point ↦ ∀ i, point.turn = some i →
      ∃ k, turns[k]? = some u ∧ i = Int32.ofNat k) (fun j hj ↦ h.turn t j ?_) fun u _ ↦ h.turn u
    rcases hpoint with hc | hc
    · rw [hi, ← hc, hj]
    · rw [hc] at hj
      cases hj

theorem Drawn.moves (howned : Owned s) (h : Drawn turns s) (hmoves : Moves s t s') :
    Drawn (turnsAfter turns s t) s' := by
  cases hmoves with
  | again p hidle hp =>
    rw [turnsAfter, hidle]
    exact ⟨h.nodup, h.counter, h.mem_iff, h.turn⟩
  | create hidle hnone =>
    rw [turnsAfter, hidle]
    exact h.create hnone
  | draw p hp =>
    rw [turnsAfter, hp]
    exact h.draw howned hp
  | register p i hp =>
    rw [turnsAfter, hp]
    exact h.goto (by rw [hp]; rfl) (.inl rfl) rfl rfl
  | label p i hp =>
    rw [turnsAfter, hp]
    exact h.goto (by rw [hp]; rfl) (.inr rfl) rfl rfl

end Kept

/-! ## Registration -/

/-- The index of the `k`-th turn. -/
def turnIndex (n : UInt32) (k : ℕ) : UInt32 := (Int32.ofNat k).toUInt32 % n

/-- The thread of the `k`-th turn has registered its logger. -/
def Entered {T : Type*} (turns : List T) (s : State T) (k p : ℕ) : Prop :=
  ∃ t, turns[k]? = some t ∧ s.shared.bufferLogger t = some p ∧ (s.point t).awaits = false

/-- Every flush logger has the loggers of its turns, each once, as far as they are registered. -/
structure Registered {T : Type*} (n : UInt32) (turns : List T) (s : State T) : Prop where
  num : s.shared.manager.numFlushLoggers = n
  length : s.shared.manager.flushLoggers.length = n.toNat
  nodup : ∀ j, (bufferLoggersOf s.shared.manager j).Nodup
  mem_iff : ∀ j p, p ∈ bufferLoggersOf s.shared.manager j ↔
    ∃ k, (turnIndex n k).toNat = j ∧ Entered turns s k p

section Kept

variable {T : Type*} {s s' : State T} {t : T} {turns : List T} {n : UInt32}

/-- A step that keeps the flush loggers and registers nobody. -/
theorem Registered.keep (h : Registered n turns s) {turns' : List T}
    (hmanager : s'.shared.manager.flushLoggers = s.shared.manager.flushLoggers)
    (hnum : s'.shared.manager.numFlushLoggers = s.shared.manager.numFlushLoggers)
    (hentered : ∀ k p, Entered turns' s' k p ↔ Entered turns s k p) : Registered n turns' s' := by
  have hlists : ∀ j, bufferLoggersOf s'.shared.manager j = bufferLoggersOf s.shared.manager j := by
    intro j
    rw [bufferLoggersOf, hmanager, bufferLoggersOf]
  refine ⟨hnum.trans h.num, hmanager ▸ h.length, fun j ↦ hlists j ▸ h.nodup j, fun j p ↦ ?_⟩
  rw [hlists, h.mem_iff]
  simp only [hentered]

theorem Registered.inBounds (hn : 1 ≤ n) (h : Registered n turns s) (i : Int32) :
    s.shared.manager.InBounds i := by
  refine inBounds_of_le ?_ ?_ i
  · rw [h.num]
    exact UInt32.le_iff_toNat_le.mp hn
  · rw [h.num, h.length]

theorem bufferLoggersOf_modify_self {m : LogManager} {j : ℕ} (hj : j < m.flushLoggers.length)
    (p : ℕ) :
    bufferLoggersOf { m with flushLoggers := m.flushLoggers.modify j (·.addBufferLogger p) } j =
      bufferLoggersOf m j ++ [p] := by
  rw [bufferLoggersOf, bufferLoggersOf, List.getElem?_modify_eq, List.getElem?_eq_getElem hj]
  rfl

theorem bufferLoggersOf_modify_of_ne {m : LogManager} {i j : ℕ} (hij : i ≠ j) (p : ℕ) :
    bufferLoggersOf { m with flushLoggers := m.flushLoggers.modify i (·.addBufferLogger p) } j =
      bufferLoggersOf m j := by
  rw [bufferLoggersOf, bufferLoggersOf, List.getElem?_modify_ne _ _ hij]

/-- The thread that registers has not done so before. -/
theorem Registered.notMem (howned : Owned s) (h : Registered n turns s) {p : ℕ} {i : Int32}
    (hp : s.point t = .registering p i) (j : ℕ) :
    p ∉ bufferLoggersOf s.shared.manager j := by
  rw [h.mem_iff]
  rintro ⟨k, -, u, -, hu, hawaits⟩
  obtain rfl : u = t := howned.inj u t p hu (howned.point t p (by rw [hp]; rfl))
  rw [hp] at hawaits
  cases hawaits

variable [DecidableEq T]

theorem entered_create (hnotMem : t ∉ turns) (k p : ℕ) :
    Entered turns { s.goto t (.drawing s.shared.bufferLoggers.length) with
      shared := (s.shared.createBufferLogger t).1 } k p ↔ Entered turns s k p := by
  refine exists_congr fun u ↦ and_congr_right fun hu ↦ ?_
  have hut : u ≠ t := fun heq ↦ hnotMem (heq ▸ List.mem_of_getElem? hu)
  change Function.update s.shared.bufferLogger t _ u = _ ∧ ((s.goto t _).point u).awaits = _ ↔ _
  rw [Function.update_of_ne hut, goto_of_ne s hut]

theorem entered_draw (hnotMem : t ∉ turns) {q : ℕ} {i : Int32} {shared : LogManager.State T}
    (hlogger : shared.bufferLogger = s.shared.bufferLogger) (k p : ℕ) :
    Entered (turns ++ [t]) { s.goto t (.registering q i) with shared } k p ↔
      Entered turns s k p := by
  constructor
  · rintro ⟨u, hu, hp, hawaits⟩
    change ((s.goto t _).point u).awaits = _ at hawaits
    have hut : u ≠ t := by
      rintro rfl
      rw [goto_self] at hawaits
      cases hawaits
    rw [goto_of_ne s hut] at hawaits
    refine ⟨u, ?_, hlogger ▸ hp, hawaits⟩
    rcases Nat.lt_or_ge k turns.length with hlt | hge
    · rwa [List.getElem?_append_left hlt] at hu
    · rw [List.getElem?_append_right hge] at hu
      exact absurd (List.mem_singleton.mp (List.mem_of_getElem? hu)) hut
  · rintro ⟨u, hu, hp, hawaits⟩
    have hut : u ≠ t := fun heq ↦ hnotMem (heq ▸ List.mem_of_getElem? hu)
    refine ⟨u, ?_, hlogger ▸ hp, ?_⟩
    · rwa [List.getElem?_append_left (List.getElem?_eq_some_iff.mp hu).1]
    · change ((s.goto t _).point u).awaits = _
      rwa [goto_of_ne s hut]

theorem entered_goto {point : Point} {shared : LogManager.State T} {returned : List (T × ℕ)}
    (hlogger : shared.bufferLogger = s.shared.bufferLogger)
    (hawaits : point.awaits = (s.point t).awaits) (k p : ℕ) :
    Entered turns { s.goto t point with shared, returned } k p ↔ Entered turns s k p := by
  refine exists_congr fun u ↦ and_congr_right fun hu ↦ ?_
  change shared.bufferLogger u = _ ∧ ((s.goto t point).point u).awaits = _ ↔ _
  rw [hlogger]
  by_cases hut : u = t
  · rw [hut, goto_self, hawaits]
  · rw [goto_of_ne s hut]

theorem entered_register (howned : Owned s) {p : ℕ} {i : Int32}
    (hp : s.point t = .registering p i) {shared : LogManager.State T}
    (hlogger : shared.bufferLogger = s.shared.bufferLogger) (k q : ℕ) :
    Entered turns { s.goto t (.labelling p i) with shared } k q ↔
      Entered turns s k q ∨ turns[k]? = some t ∧ q = p := by
  have hown : s.shared.bufferLogger t = some p := howned.point t p (by rw [hp]; rfl)
  constructor
  · rintro ⟨u, hu, hq, hawaits⟩
    rw [hlogger] at hq
    by_cases hut : u = t
    · rw [hut, hown, Option.some_inj] at hq
      exact .inr ⟨hut ▸ hu, hq.symm⟩
    · change ((s.goto t _).point u).awaits = _ at hawaits
      rw [goto_of_ne s hut] at hawaits
      exact .inl ⟨u, hu, hq, hawaits⟩
  · rintro (⟨u, hu, hq, hawaits⟩ | ⟨ht, rfl⟩)
    · have hut : u ≠ t := by
        rintro rfl
        rw [hp] at hawaits
        cases hawaits
      refine ⟨u, hu, hlogger ▸ hq, ?_⟩
      change ((s.goto t _).point u).awaits = _
      rwa [goto_of_ne s hut]
    · refine ⟨t, ht, hlogger ▸ hown, ?_⟩
      change ((s.goto t _).point t).awaits = _
      rw [goto_self]
      rfl

theorem mem_bufferLoggersOf_modify {m : LogManager} {i : ℕ} (hi : i < m.flushLoggers.length)
    (p q j : ℕ) :
    q ∈ bufferLoggersOf
        { m with flushLoggers := m.flushLoggers.modify i (·.addBufferLogger p) } j ↔
      q ∈ bufferLoggersOf m j ∨ i = j ∧ q = p := by
  by_cases hij : i = j
  · subst hij
    rw [bufferLoggersOf_modify_self hi, List.mem_append, List.mem_singleton, eq_self, true_and]
  · rw [bufferLoggersOf_modify_of_ne hij, or_iff_left fun h ↦ hij h.1]

theorem Registered.register (hn : 1 ≤ n) (howned : Owned s) (hdrawn : Drawn turns s)
    (h : Registered n turns s) {p : ℕ} {i : Int32} (hp : s.point t = .registering p i) :
    Registered n turns { s.goto t (.labelling p i) with
      shared := { s.shared with
        manager.flushLoggers := s.shared.manager.flushLoggers.modify
          (s.shared.manager.flushLoggerIndex i).toNat (·.addBufferLogger p) } } := by
  obtain ⟨k, hk, rfl⟩ := hdrawn.turn t i (by rw [hp]; rfl)
  have hindex : s.shared.manager.flushLoggerIndex (Int32.ofNat k) = turnIndex n k := by
    rw [flushLoggerIndex, h.num, turnIndex]
  have hnotMem := h.notMem howned hp
  have hlt : (turnIndex n k).toNat < s.shared.manager.flushLoggers.length :=
    hindex ▸ (h.inBounds hn _).2
  rw [hindex]
  refine ⟨h.num, (List.length_modify ..).trans h.length, fun j ↦ ?_, fun j q ↦ ?_⟩
  · by_cases hj : (turnIndex n k).toNat = j
    · subst hj
      refine (bufferLoggersOf_modify_self hlt p).symm ▸ List.nodup_append.mpr
        ⟨h.nodup _, List.nodup_singleton p, fun q hq r hr heq ↦ hnotMem (turnIndex n k).toNat ?_⟩
      rwa [heq, List.mem_singleton.mp hr] at hq
    · exact (bufferLoggersOf_modify_of_ne hj p).symm ▸ h.nodup j
  · rw [mem_bufferLoggersOf_modify hlt, h.mem_iff]
    constructor
    · rintro (⟨l, hl, hentered⟩ | ⟨hj, rfl⟩)
      · exact ⟨l, hl, (entered_register howned hp rfl l q).mpr (.inl hentered)⟩
      · exact ⟨k, hj, (entered_register howned hp rfl k q).mpr (.inr ⟨hk, rfl⟩)⟩
    · rintro ⟨l, hl, hentered⟩
      rcases (entered_register howned hp rfl l q).mp hentered with hentered | ⟨hl', rfl⟩
      · exact .inl ⟨l, hl, hentered⟩
      · obtain rfl : k = l := hdrawn.turn_inj hk hl'
        exact .inr ⟨hl, rfl⟩

theorem Registered.moves (hn : 1 ≤ n) (howned : Owned s) (hdrawn : Drawn turns s)
    (h : Registered n turns s) (hmoves : Moves s t s') :
    Registered n (turnsAfter turns s t) s' := by
  cases hmoves with
  | again p hidle hp =>
    rw [turnsAfter, hidle]
    exact h.keep rfl rfl fun _ _ ↦ Iff.rfl
  | create hidle hnone =>
    rw [turnsAfter, hidle]
    exact h.keep rfl rfl (entered_create (hdrawn.notMem_of_none hnone))
  | draw p hp =>
    rw [turnsAfter, hp]
    exact h.keep rfl rfl (entered_draw (hdrawn.notMem hp) rfl)
  | register p i hp =>
    rw [turnsAfter, hp]
    exact h.register hn howned hdrawn hp
  | label p i hp =>
    rw [turnsAfter, hp]
    exact h.keep rfl rfl (entered_goto rfl (by rw [hp]; rfl))

end Kept

/-! ## Ids -/

/-- A thread whose call has returned has the index of its turn as its id, converted to `int`. -/
def Labelled {T : Type*} (n : UInt32) (turns : List T) (s : State T) : Prop :=
  ∀ k t p, turns[k]? = some t → s.point t = .idle → s.shared.bufferLogger t = some p →
    s.shared.bufferLoggers[p]? = some ⟨(turnIndex n k).toInt32⟩

section Kept

variable {T : Type*} [DecidableEq T] {s s' : State T} {t : T} {turns : List T} {n : UInt32}

/-- A step that takes its thread into a first call, or further in it. -/
theorem Labelled.goto (h : Labelled n turns s) {turns' : List T} {point : Point}
    {shared : LogManager.State T} (hpoint : point ≠ .idle)
    (hturns : ∀ (k : ℕ) (u : T), u ≠ t → turns'[k]? = some u → turns[k]? = some u)
    (hlogger : ∀ u p, u ≠ t → shared.bufferLogger u = some p →
      s.shared.bufferLogger u = some p ∧ shared.bufferLoggers[p]? = s.shared.bufferLoggers[p]?) :
    Labelled n turns' { s.goto t point with shared } := by
  intro k u p hu hidle hp
  change (s.goto t point).point u = .idle at hidle
  have hut : u ≠ t := by
    rintro rfl
    rw [goto_self] at hidle
    exact hpoint hidle
  rw [goto_of_ne s hut] at hidle
  obtain ⟨hp', hsame⟩ := hlogger u p hut hp
  exact hsame.trans (h k u p (hturns k u hut hu) hidle hp')

theorem Labelled.label (howned : Owned s) (hdrawn : Drawn turns s)
    (hregistered : Registered n turns s) (h : Labelled n turns s) {p : ℕ} {i : Int32}
    (hp : s.point t = .labelling p i) :
    Labelled n turns { s.goto t .idle with
      shared := { s.shared with
        bufferLoggers := s.shared.bufferLoggers.modify p
          (·.setFlushLoggerId (s.shared.manager.flushLoggerIndex i).toInt32) }
      returned := s.returned ++ [(t, p)] } := by
  have hown : s.shared.bufferLogger t = some p := howned.point t p (by rw [hp]; rfl)
  obtain ⟨l, hl, rfl⟩ := hdrawn.turn t i (by rw [hp]; rfl)
  intro k u q hu hidle hq
  change s.shared.bufferLogger u = some q at hq
  change (s.shared.bufferLoggers.modify p _)[q]? = _
  by_cases hut : u = t
  · subst hut
    obtain rfl : k = l := hdrawn.turn_inj hu hl
    obtain rfl : p = q := Option.some_inj.mp (hown.symm.trans hq)
    rw [List.getElem?_modify_eq, List.getElem?_eq_getElem (howned.lt u p hown), flushLoggerIndex,
      hregistered.num]
    rfl
  · have hne : p ≠ q := fun heq ↦ hut (howned.inj u t q hq (heq ▸ hown))
    change (s.goto t _).point u = .idle at hidle
    rw [goto_of_ne s hut] at hidle
    -- the id of another thread's logger stays
    rw [List.getElem?_modify_ne _ _ hne]
    exact h k u q hu hidle hq

theorem Labelled.moves (howned : Owned s) (hdrawn : Drawn turns s)
    (hregistered : Registered n turns s) (h : Labelled n turns s) (hmoves : Moves s t s') :
    Labelled n (turnsAfter turns s t) s' := by
  cases hmoves with
  | again p hidle hp =>
    rw [turnsAfter, hidle]
    exact h
  | create hidle hnone =>
    rw [turnsAfter, hidle]
    refine h.goto nofun (fun _ _ _ hu ↦ hu) fun u p hut hp ↦ ?_
    change Function.update s.shared.bufferLogger t _ u = some p at hp
    rw [Function.update_of_ne hut] at hp
    exact ⟨hp, List.getElem?_append_left (howned.lt u p hp)⟩
  | draw p hp =>
    rw [turnsAfter, hp]
    refine h.goto nofun (fun k u hut hu ↦ ?_) fun _ _ _ hq ↦ ⟨hq, rfl⟩
    rcases Nat.lt_or_ge k turns.length with hlt | hge
    · rwa [List.getElem?_append_left hlt] at hu
    · rw [List.getElem?_append_right hge] at hu
      exact absurd (List.mem_singleton.mp (List.mem_of_getElem? hu)) hut
  | register p i hp =>
    rw [turnsAfter, hp]
    exact h.goto nofun (fun _ _ _ hu ↦ hu) fun _ _ _ hq ↦ ⟨hq, rfl⟩
  | label p i hp =>
    rw [turnsAfter, hp]
    exact h.label howned hdrawn hregistered hp

end Kept

/-! ## Runs -/

/-- The invariant. -/
structure Assigned {T : Type*} (n : UInt32) (turns : List T) (s : State T) : Prop where
  owned : Owned s
  drawn : Drawn turns s
  registered : Registered n turns s
  labelled : Labelled n turns s

theorem bufferLoggersOf_ready {T : Type*} (loggingType : LoggingType) (n : UInt32) (j : ℕ) :
    bufferLoggersOf (ready T loggingType n).manager j = [] := by
  have hlists : (ready T loggingType n).manager.flushLoggers =
      (List.range n.toNat).map fun i ↦ .create (UInt32.ofNat i) := rfl
  rw [bufferLoggersOf, hlists, List.getElem?_map]
  cases (List.range n.toNat)[j]? <;> rfl

theorem assigned_init {T : Type*} (loggingType : LoggingType) (n : UInt32) :
    Assigned n [] (init T loggingType n) where
  owned := ⟨nofun, nofun, nofun, nofun⟩
  drawn := ⟨List.nodup_nil, rfl, fun t ↦ iff_of_false List.not_mem_nil fun h ↦ h.1 rfl, nofun⟩
  registered := by
    refine ⟨numFlushLoggers_initFlushLoggers _, length_initFlushLoggers rfl, fun j ↦ ?_,
      fun j p ↦ ?_⟩
    · exact (bufferLoggersOf_ready loggingType n j).symm ▸ List.nodup_nil
    · refine iff_of_false ?_ ?_
      · exact (bufferLoggersOf_ready loggingType n j).symm ▸ List.not_mem_nil
      · rintro ⟨k, -, t, ht, -⟩
        cases ht
  labelled := nofun

section Run

variable {T : Type*} [DecidableEq T] {s s' : State T} {turns : List T} {n : UInt32}

theorem Assigned.moves {t : T} (hn : 1 ≤ n) (h : Assigned n turns s) (hmoves : Moves s t s') :
    Assigned n (turnsAfter turns s t) s' where
  owned := h.owned.moves hmoves
  drawn := h.drawn.moves h.owned hmoves
  registered := h.registered.moves hn h.owned h.drawn hmoves
  labelled := h.labelled.moves h.owned h.drawn h.registered hmoves

/-- **The step lemma.** -/
theorem preserves_assigned (hn : 1 ≤ n) :
    (machine T).Preserves fun s ↦ ∃ turns, Assigned n turns s := by
  rintro s s' a ⟨turns, h⟩ hstep
  cases a with
  | call t => exact ⟨_, h.moves hn (step_call hstep).2⟩
  | advance t => exact ⟨_, h.moves hn (step_advance hstep).2⟩

/-- The threads that have a logger are those that have called. -/
theorem bufferLogger_step {a : Action T} (hstep : step s a = some s') (u : T) :
    s'.shared.bufferLogger u ≠ none ↔ s.shared.bufferLogger u ≠ none ∨ a = .call u := by
  cases a with
  | call t =>
    obtain ⟨hpoint, hmoves⟩ := step_call hstep
    rw [Action.call.injEq]
    cases hmoves with
    | again p hidle hp =>
      refine ⟨.inl, ?_⟩
      rintro (hu | rfl)
      · exact hu
      · exact fun hnone ↦ Option.some_ne_none p (hp.symm.trans hnone)
    | create hidle hnone =>
      change Function.update s.shared.bufferLogger t (some _) u ≠ none ↔ _
      by_cases hut : u = t
      · subst hut
        rw [Function.update_self]
        exact iff_of_true (Option.some_ne_none _) (.inr rfl)
      · rw [Function.update_of_ne hut, or_iff_left (Ne.symm hut)]
    | draw p hp => cases hpoint.symm.trans hp
    | register p i hp => cases hpoint.symm.trans hp
    | label p i hp => cases hpoint.symm.trans hp
  | advance t =>
    obtain ⟨hpoint, hmoves⟩ := step_advance hstep
    rw [or_iff_left nofun]
    cases hmoves with
    | again p hidle hp => exact absurd hidle hpoint
    | create hidle hnone => exact absurd hidle hpoint
    | draw p hp => exact Iff.rfl
    | register p i hp => exact Iff.rfl
    | label p i hp => exact Iff.rfl

theorem bufferLogger_run {actions : List (Action T)} (hrun : (machine T).run s actions = some s')
    (u : T) :
    s'.shared.bufferLogger u ≠ none ↔ s.shared.bufferLogger u ≠ none ∨ .call u ∈ actions := by
  induction actions generalizing s with
  | nil =>
    rw [Machine.run_nil, Option.some_inj] at hrun
    rw [hrun, or_iff_left List.not_mem_nil]
  | cons a actions ih =>
    rw [Machine.run_cons, Option.bind_eq_some_iff] at hrun
    obtain ⟨v, hstep, hrest⟩ := hrun
    rw [ih hrest, bufferLogger_step hstep, List.mem_cons, or_assoc, eq_comm (a := a)]

end Run

/-! ## Turns and indices -/

theorem toNat_turnIndex {n : UInt32} {k : ℕ} (hk : k < 2 ^ 32) :
    (turnIndex n k).toNat = k % n.toNat := by
  have hturn : (Int32.ofNat k).toUInt32 = UInt32.ofNat k := rfl
  rw [turnIndex, hturn, UInt32.toNat_mod, UInt32.toNat_ofNat_of_lt' hk]

/-- An index is its own id as long as it fits into an `int`. -/
theorem toInt_toInt32_eq_iff (index : UInt32) :
    index.toInt32.toInt = index.toNat ↔ index.toNat < 2 ^ 31 := by
  have hlt := index.toNat_lt
  have hcast : index.toInt32.toInt = (index.toNat : ℤ).bmod (2 ^ 32) := by
    rw [← UInt32.ofNat_toNat (x := index), UInt32.toInt32_ofNat', Int32.toInt_ofNat',
      UInt32.ofNat_toNat]
    rfl
  rw [hcast, Int.bmod_def]
  omega

/-- Two residues come up equally often among the first `m` numbers, or one of them once more. -/
theorem count_mod_le {n i j : ℕ} (hi : i < n) (hj : j < n) (m : ℕ) :
    Nat.count (· % n = i) m ≤ Nat.count (· % n = j) m + 1 := by
  have hcount : ∀ {l}, l < n → Nat.count (· % n = l) m = m / n + if l < m % n then 1 else 0 := by
    intro l hl
    have hmodEq := Nat.count_modEq_card m (Nat.zero_lt_of_lt hl) l
    simp only [Nat.ModEq, Nat.mod_eq_of_lt hl] at hmodEq
    exact hmodEq
  rw [hcount hi, hcount hj]
  split_ifs <;> omega

/-- All residues of the first `m` numbers are small if there are few residues, or few numbers. -/
theorem mod_lt_iff {n m b : ℕ} (hn : 0 < n) : (∀ k < m, k % n < b) ↔ n ≤ b ∨ m ≤ b := by
  constructor
  · intro h
    by_contra hlarge
    rw [not_or, not_le, not_le] at hlarge
    have hb := h b hlarge.2
    rw [Nat.mod_eq_of_lt hlarge.1] at hb
    exact Nat.lt_irrefl b hb
  · rintro (hnb | hmb) k hk
    · exact (Nat.mod_lt k hn).trans_le hnb
    · exact (Nat.mod_le k n).trans_lt (hk.trans_le hmb)

/-! ## The state between calls -/

section Quiescent

variable {T : Type*} {s : State T} {turns : List T} {n : UInt32}

theorem Assigned.mem_turns_iff (h : Assigned n turns s) (hidle : ∀ t, s.point t = .idle) (t : T) :
    t ∈ turns ↔ s.shared.bufferLogger t ≠ none := by
  rw [h.drawn.mem_iff, and_iff_left]
  intro p
  rw [hidle]
  exact nofun

/-- Between calls a flush logger has the loggers of its turns. -/
theorem Assigned.mem_iff (h : Assigned n turns s) (hidle : ∀ t, s.point t = .idle) (j p : ℕ) :
    p ∈ bufferLoggersOf s.shared.manager j ↔
      ∃ k t, (turnIndex n k).toNat = j ∧ turns[k]? = some t ∧
        s.shared.bufferLogger t = some p := by
  rw [h.registered.mem_iff]
  constructor
  · rintro ⟨k, hk, t, ht, hp, -⟩
    exact ⟨k, t, hk, ht, hp⟩
  · rintro ⟨k, t, hk, ht, hp⟩
    exact ⟨k, hk, t, ht, hp, by rw [hidle]; rfl⟩

/-- The logger of the thread with turn `k` is in the list of that turn and in no other. -/
theorem Assigned.mem_turn_iff (h : Assigned n turns s) (hidle : ∀ t, s.point t = .idle)
    {k p : ℕ} {t : T} (ht : turns[k]? = some t) (hp : s.shared.bufferLogger t = some p) (j : ℕ) :
    p ∈ bufferLoggersOf s.shared.manager j ↔ j = (turnIndex n k).toNat := by
  rw [h.mem_iff hidle]
  constructor
  · rintro ⟨l, u, hl, hu, hp'⟩
    obtain rfl : u = t := h.owned.inj u t p hp' hp
    rw [← hl, h.drawn.turn_inj hu ht]
  · rintro rfl
    exact ⟨k, t, rfl, ht, hp⟩

/-- The length of a list is the number of its turns. -/
theorem Assigned.length_bufferLoggersOf (h : Assigned n turns s)
    (hidle : ∀ t, s.point t = .idle) (hturns : turns.length ≤ 2 ^ 32) (j : ℕ) :
    (bufferLoggersOf s.shared.manager j).length = Nat.count (· % n.toNat = j) turns.length := by
  let pointer : ℕ → ℕ := fun k ↦ ((turns[k]?).bind s.shared.bufferLogger).getD 0
  have hpointer : ∀ {k t p}, turns[k]? = some t → s.shared.bufferLogger t = some p →
      pointer k = p := by
    intro k t p ht hp
    change ((turns[k]?).bind s.shared.bufferLogger).getD 0 = p
    rw [ht, Option.bind_some, hp, Option.getD_some]
  have hlogger : ∀ {k}, k < turns.length → ∃ t p, turns[k]? = some t ∧
      s.shared.bufferLogger t = some p := by
    intro k hk
    have hne := (h.mem_turns_iff hidle turns[k]).mp (List.getElem_mem hk)
    obtain ⟨p, hp⟩ := Option.ne_none_iff_exists'.mp hne
    exact ⟨turns[k], p, List.getElem?_eq_getElem hk, hp⟩
  -- the turns of index `j` correspond to the entries of the list
  rw [Nat.count_eq_card_filter_range, ← List.toFinset_card_of_nodup (h.registered.nodup j)]
  refine (Finset.card_nbij pointer ?_ ?_ ?_).symm
  · intro k hk
    obtain ⟨hlt, hkj⟩ := Finset.mem_filter.mp hk
    rw [Finset.mem_range] at hlt
    obtain ⟨t, p, ht, hp⟩ := hlogger hlt
    rw [Finset.mem_coe, List.mem_toFinset, hpointer ht hp, h.mem_turn_iff hidle ht hp,
      toNat_turnIndex (hlt.trans_le hturns)]
    exact hkj.symm
  · intro k hk l hl hkl
    obtain ⟨t, p, ht, hp⟩ := hlogger (Finset.mem_range.mp (Finset.mem_filter.mp hk).1)
    obtain ⟨u, q, hu, hq⟩ := hlogger (Finset.mem_range.mp (Finset.mem_filter.mp hl).1)
    rw [hpointer ht hp, hpointer hu hq] at hkl
    obtain rfl : t = u := h.owned.inj t u p hp (hkl ▸ hq)
    exact h.drawn.turn_inj ht hu
  · intro p hp
    rw [Finset.mem_coe, List.mem_toFinset, h.mem_iff hidle] at hp
    obtain ⟨k, t, hk, ht, hp⟩ := hp
    have hlt : k < turns.length := (List.getElem?_eq_some_iff.mp ht).1
    rw [toNat_turnIndex (hlt.trans_le hturns)] at hk
    exact ⟨k, Finset.mem_filter.mpr ⟨Finset.mem_range.mpr hlt, hk⟩, hpointer ht hp⟩

/-- The logger of a thread that has called, with all that is recorded of it. -/
theorem Assigned.exists_logger (hn : 1 ≤ n) (h : Assigned n turns s)
    (hidle : ∀ t, s.point t = .idle) {k : ℕ} {t : T} (ht : turns[k]? = some t) :
    ∃ p, s.shared.bufferLogger t = some p ∧
      s.shared.bufferLoggers[p]? = some ⟨(turnIndex n k).toInt32⟩ ∧
      (turnIndex n k).toNat < s.shared.manager.flushLoggers.length ∧
      ∀ i, (bufferLoggersOf s.shared.manager i).count p =
        if i = (turnIndex n k).toNat then 1 else 0 := by
  have hne := (h.mem_turns_iff hidle t).mp (List.mem_of_getElem? ht)
  obtain ⟨p, hp⟩ := Option.ne_none_iff_exists'.mp hne
  refine ⟨p, hp, h.labelled k t p ht (hidle t) hp, ?_, fun i ↦ ?_⟩
  · rw [h.registered.length, turnIndex, UInt32.toNat_mod]
    exact Nat.mod_lt _ (UInt32.le_iff_toNat_le.mp hn)
  · have hmem := h.mem_turn_iff hidle ht hp i
    split_ifs with hi
    · exact List.count_eq_one_of_mem (h.registered.nodup i) (hmem.mpr hi)
    · exact List.count_eq_zero.mpr fun hc ↦ hi (hmem.mp hc)

end Quiescent

/-! ## The spread of the threads -/

variable {T : Type*} [DecidableEq T]

/-- The threads that have called `GetBufferLogger`. -/
def callers (actions : List (Action T)) : Finset T :=
  (actions.filterMap fun
    | .call t => some t
    | .advance _ => none).toFinset

/-- Every thread that has called is registered with one flush logger, once, and has its index as
its id; calls have returned the thread's logger; and no list is longer than another by more than
one. -/
structure EvenlyAssigned (actions : List (Action T)) (s : State T) : Prop where
  registered : ∀ t ∈ callers actions, ∃ p b j, s.shared.bufferLogger t = some p ∧
    s.shared.bufferLoggers[p]? = some b ∧ j < s.shared.manager.flushLoggers.length ∧
    (∀ i, (bufferLoggersOf s.shared.manager i).count p = if i = j then 1 else 0) ∧
    b.flushLoggerId.toInt = j
  returned : ∀ t p, (t, p) ∈ s.returned → s.shared.bufferLogger t = some p
  even : ∀ i j, i < s.shared.manager.flushLoggers.length →
    j < s.shared.manager.flushLoggers.length →
    (bufferLoggersOf s.shared.manager i).length ≤
      (bufferLoggersOf s.shared.manager j).length + 1

theorem mem_callers {actions : List (Action T)} {t : T} :
    t ∈ callers actions ↔ .call t ∈ actions := by
  rw [callers, List.mem_toFinset, List.mem_filterMap]
  constructor
  · rintro ⟨a, ha, heq⟩
    cases a with
    | call u =>
      obtain rfl := Option.some_inj.mp heq
      exact ha
    | advance u => cases heq
  · exact fun ht ↦ ⟨.call t, ht, rfl⟩

section Spread

variable {actions : List (Action T)} {s : State T} {turns : List T} {n : UInt32}
  {loggingType : LoggingType}

theorem callers_eq (h : Assigned n turns s) (hidle : ∀ t, s.point t = .idle)
    (hrun : (machine T).run (init T loggingType n) actions = some s) :
    callers actions = turns.toFinset := by
  ext t
  have hcalled := bufferLogger_run hrun t
  have hnone : (init T loggingType n).shared.bufferLogger t = none := rfl
  rw [hnone, or_iff_right fun hc ↦ hc rfl] at hcalled
  rw [mem_callers, List.mem_toFinset, h.mem_turns_iff hidle, hcalled]

/-- The id recorded for a turn is its index, so that the index fits into an `int`. -/
theorem Assigned.toNat_turnIndex_lt (hn : 1 ≤ n) (h : Assigned n turns s)
    (hidle : ∀ t, s.point t = .idle) (heven : EvenlyAssigned actions s) {k : ℕ} {t : T}
    (ht : turns[k]? = some t) (hcaller : t ∈ callers actions) :
    (turnIndex n k).toNat < 2 ^ 31 := by
  obtain ⟨p, hp, hb, -, hcount⟩ := h.exists_logger hn hidle ht
  obtain ⟨q, b, j, hq, hb', -, hcount', hid⟩ := heven.registered t hcaller
  obtain rfl : p = q := Option.some_inj.mp (hp.symm.trans hq)
  obtain rfl : b = ⟨(turnIndex n k).toInt32⟩ := Option.some_inj.mp (hb'.symm.trans hb)
  -- the logger is in the list of the turn's index only
  obtain rfl : j = (turnIndex n k).toNat := by
    by_contra hj
    have hzero := (hcount j).symm.trans (hcount' j)
    rw [if_pos rfl, if_neg hj] at hzero
    cases hzero
  exact (toInt_toInt32_eq_iff _).mp hid

/-- **The spread, up to the ids.** It holds exactly if the index of every turn fits into an
`int`. -/
theorem Assigned.evenly_iff_fits (hn : 1 ≤ n) (h : Assigned n turns s)
    (hidle : ∀ t, s.point t = .idle) (hcallers : callers actions = turns.toFinset)
    (hturns : turns.length ≤ 2 ^ 32) :
    EvenlyAssigned actions s ↔ ∀ k < turns.length, (turnIndex n k).toNat < 2 ^ 31 := by
  constructor
  · intro heven k hk
    refine h.toNat_turnIndex_lt hn hidle heven (List.getElem?_eq_getElem hk) ?_
    rw [hcallers, List.mem_toFinset]
    exact List.getElem_mem hk
  · intro hfits
    refine ⟨fun t ht ↦ ?_, h.owned.returned, fun i j hi hj ↦ ?_⟩
    · rw [hcallers, List.mem_toFinset] at ht
      obtain ⟨k, hk⟩ := List.mem_iff_getElem?.mp ht
      obtain ⟨p, hp, hb, hindex, hcount⟩ := h.exists_logger hn hidle hk
      exact ⟨p, _, _, hp, hb, hindex, hcount,
        (toInt_toInt32_eq_iff _).mpr (hfits k (List.getElem?_eq_some_iff.mp hk).1)⟩
    · rw [h.registered.length] at hi hj
      rw [h.length_bufferLoggersOf hidle hturns, h.length_bufferLoggersOf hidle hturns]
      exact count_mod_le hi hj _

theorem Assigned.evenly_iff (hn : 1 ≤ n) (h : Assigned n turns s)
    (hidle : ∀ t, s.point t = .idle) (hcallers : callers actions = turns.toFinset)
    (hturns : turns.length ≤ 2 ^ 32) :
    EvenlyAssigned actions s ↔ n.toNat ≤ 2 ^ 31 ∨ turns.length ≤ 2 ^ 31 := by
  rw [h.evenly_iff_fits hn hidle hcallers hturns, ← mod_lt_iff (UInt32.le_iff_toNat_le.mp hn)]
  refine forall₂_congr fun k hk ↦ ?_
  rw [toNat_turnIndex (hk.trans_le hturns)]

end Spread

/-- **`GetBufferLogger` spreads threads evenly.** Let at most `2 ^ 32` threads call it, on a
manager with `n` flush loggers and however their steps interleave. Whenever no call is in progress,
every thread that has called is registered with one flush logger, once, with its index as the id,
has been returned the same logger throughout, and no two lists differ in length by more than one,
exactly if there are not more than `2 ^ 31` flush loggers or not more than `2 ^ 31` threads have
called. -/
theorem evenlyAssigned_iff {n : UInt32} (hn : 1 ≤ n) {loggingType : LoggingType}
    {actions : List (Action T)} (hcallers : (callers actions).card ≤ 2 ^ 32) {s : State T}
    (hrun : (machine T).run (init T loggingType n) actions = some s)
    (hidle : ∀ t, s.point t = .idle) :
    EvenlyAssigned actions s ↔ n.toNat ≤ 2 ^ 31 ∨ (callers actions).card ≤ 2 ^ 31 := by
  obtain ⟨turns, h⟩ := (preserves_assigned hn).run ⟨[], assigned_init loggingType n⟩ hrun
  have heq := callers_eq h hidle hrun
  have hcard : (callers actions).card = turns.length := by
    rw [heq, List.toFinset_card_of_nodup h.drawn.nodup]
  rw [hcard] at hcallers ⊢
  exact h.evenly_iff hn hidle heq hcallers

/-! ## One call after the other -/

/-- A first call of `t`, not interrupted. -/
def firstCall (t : T) : List (Action T) := [.call t, .advance t, .advance t, .advance t]

section Complete

variable {s : State T} {t : T} {p : ℕ} {i : Int32}

theorem exists_create (hp : s.point t = .idle) (hnone : s.shared.bufferLogger t = none) :
    ∃ s', step s (.call t) = some s' ∧
      s'.point = Function.update s.point t (.drawing s.shared.bufferLoggers.length) ∧
      s'.shared.manager = s.shared.manager := by
  simp only [step, hp, hnone]
  exact ⟨_, rfl, rfl, rfl⟩

theorem exists_draw (hp : s.point t = .drawing p) :
    ∃ s', step s (.advance t) = some s' ∧
      s'.point = Function.update s.point t
        (.registering p s.shared.manager.flushLoggerAssignCounter) ∧
      s'.shared.manager = { s.shared.manager with
        flushLoggerAssignCounter := s.shared.manager.flushLoggerAssignCounter + 1 } := by
  simp only [step, hp]
  exact ⟨_, rfl, rfl, rfl⟩

theorem exists_register (hp : s.point t = .registering p i) (hb : s.shared.manager.InBounds i) :
    ∃ s', step s (.advance t) = some s' ∧
      s'.point = Function.update s.point t (.labelling p i) ∧
      s'.shared.manager.numFlushLoggers = s.shared.manager.numFlushLoggers := by
  simp only [step, hp, LogManager.State.addBufferLogger, if_pos hb, Option.map_some]
  exact ⟨_, rfl, rfl, rfl⟩

theorem exists_label (hp : s.point t = .labelling p i)
    (hnum : s.shared.manager.numFlushLoggers ≠ 0) :
    ∃ s', step s (.advance t) = some s' ∧ s'.point = Function.update s.point t .idle := by
  simp only [step, hp, LogManager.State.setFlushLoggerId, if_neg hnum, Option.map_some]
  exact ⟨_, rfl, rfl⟩

/-- A first call that is not interrupted returns. -/
theorem exists_firstCall (hb : s.shared.manager.InBounds s.shared.manager.flushLoggerAssignCounter)
    (hidle : ∀ t, s.point t = .idle) (hnone : s.shared.bufferLogger t = none) :
    ∃ s', (machine T).run s (firstCall t) = some s' ∧ ∀ u, s'.point u = .idle := by
  obtain ⟨s₁, h₁, hp₁, hm₁⟩ := exists_create (hidle t) hnone
  obtain ⟨s₂, h₂, hp₂, hm₂⟩ := exists_draw (s := s₁) (t := t) (by rw [hp₁, Function.update_self])
  obtain ⟨s₃, h₃, hp₃, hm₃⟩ := exists_register (s := s₂) (t := t)
    (by rw [hp₂, Function.update_self]) (by rw [hm₂, hm₁]; exact hb)
  obtain ⟨s₄, h₄, hp₄⟩ := exists_label (s := s₃) (t := t) (by rw [hp₃, Function.update_self])
    (by rw [hm₃, hm₂, hm₁]; exact hb.1)
  refine ⟨s₄, ?_, fun u ↦ ?_⟩
  · rw [firstCall, Machine.run_cons_of_step h₁, Machine.run_cons_of_step h₂,
      Machine.run_cons_of_step h₃, Machine.run_cons_of_step h₄, Machine.run_nil]
  · rw [hp₄, hp₃, hp₂, hp₁]
    by_cases hut : u = t
    · rw [hut, Function.update_self]
    · rw [Function.update_of_ne hut, Function.update_of_ne hut, Function.update_of_ne hut,
        Function.update_of_ne hut, hidle]

end Complete

/-- Threads `0`, `1`, … call one after the other. -/
theorem exists_calls {n : UInt32} (hn : 1 ≤ n) (m : ℕ) :
    ∃ s, (machine ℕ).run (init ℕ .ssdWal n) ((List.range m).flatMap firstCall) = some s ∧
      ∀ t, s.point t = .idle := by
  induction m with
  | zero => exact ⟨_, rfl, fun _ ↦ rfl⟩
  | succ m ih =>
    obtain ⟨s, hrun, hidle⟩ := ih
    obtain ⟨turns, h⟩ := (preserves_assigned hn).run ⟨[], assigned_init .ssdWal n⟩ hrun
    -- thread `m` is not among those that have called
    have hnone : s.shared.bufferLogger m = none := by
      by_contra hne
      rcases (bufferLogger_run hrun m).mp hne with hc | hc
      · exact hc rfl
      · obtain ⟨t, ht, hcall⟩ := List.mem_flatMap.mp hc
        obtain rfl : m = t := by simpa [firstCall] using hcall
        exact Nat.lt_irrefl m (List.mem_range.mp ht)
    have hb := h.registered.inBounds hn s.shared.manager.flushLoggerAssignCounter
    obtain ⟨s', hrun', hidle'⟩ := exists_firstCall hb hidle hnone
    refine ⟨s', ?_, hidle'⟩
    rw [List.range_succ, List.flatMap_append, List.flatMap_singleton, Machine.run_append, hrun,
      Option.bind_some, hrun']

theorem callers_calls (m : ℕ) :
    callers ((List.range m).flatMap firstCall) = Finset.range m := by
  ext t
  rw [mem_callers, List.mem_flatMap, Finset.mem_range]
  constructor
  · rintro ⟨u, hu, hcall⟩
    obtain rfl : t = u := by simpa [firstCall] using hcall
    exact List.mem_range.mp hu
  · exact fun ht ↦ ⟨t, List.mem_range.mpr ht, List.mem_cons_self⟩

/-- With one flush logger more than an `int` can count, and as many threads, the last thread does
not have its index as its id. -/
theorem mislabelled :
    ∃ (actions : List (Action ℕ)) (s : State ℕ), (callers actions).card ≤ 2 ^ 32 ∧
      (machine ℕ).run (init ℕ .ssdWal 2147483649) actions = some s ∧
      (∀ t, s.point t = .idle) ∧ ¬EvenlyAssigned actions s := by
  have hn : (1 : UInt32) ≤ 2147483649 := by decide
  obtain ⟨s, hrun, hidle⟩ := exists_calls hn (2 ^ 31 + 1)
  obtain ⟨turns, h⟩ := (preserves_assigned hn).run ⟨[], assigned_init .ssdWal 2147483649⟩ hrun
  have heq := callers_eq h hidle hrun
  have hlength : turns.length = 2 ^ 31 + 1 := by
    rw [← List.toFinset_card_of_nodup h.drawn.nodup, ← heq, callers_calls, Finset.card_range]
  refine ⟨_, s, ?_, hrun, hidle, fun heven ↦ ?_⟩
  · rw [callers_calls, Finset.card_range]
    decide
  · rcases (h.evenly_iff hn hidle heq (by rw [hlength]; decide)).mp heven with hc | hc
    · exact absurd hc (by decide)
    · rw [hlength] at hc
      exact absurd hc (by decide)

/-- Two threads that draw and register in different orders. -/
def crossing : List (Action (Fin 2)) :=
  [.call 0, .call 1, .advance 1, .advance 0, .advance 0, .advance 1, .advance 1, .advance 0,
    .call 0]

theorem evenlyAssigned_crossing :
    ∃ s, (machine (Fin 2)).run (init (Fin 2) .ssdWal 3) crossing = some s ∧
      EvenlyAssigned crossing s := by
  have hrun : (machine (Fin 2)).run (init (Fin 2) .ssdWal 3) crossing = some _ := rfl
  exact ⟨_, hrun, (evenlyAssigned_iff (by decide) (by decide) hrun (by decide)).mpr
    (.inl (by decide))⟩

end Assignment

end FulgurLogging
