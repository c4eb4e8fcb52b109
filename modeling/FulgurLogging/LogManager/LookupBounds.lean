import FulgurLogging.LogManager.GetBufferLogger
import Mathlib.Data.Set.Finite.Basic

/-!
# The bounds of the round-robin lookup

The divisor of the lookup is `num_flush_loggers_`, which every `Configure` rewrites, and the bound
of the index is the length of `flush_loggers`, which the first `InitFlushLoggers` fixes for good.
The lookup is safe as long as the first is not zero and not larger than the second, whatever the
value of the counter; `Configure` checks neither.

A divisor that is too large does no harm at once: the counter has to reach an index outside. It
gets there, since every thread that calls for the first time adds one to it.
-/

namespace FulgurLogging

open Transition

namespace LogManager

variable {T : Type*} {s s' : State T} {n : UInt32}

/-- The lookup of the next first call is in bounds. -/
def LookupSafe (s : State T) : Prop := s.manager.InBounds s.manager.flushLoggerAssignCounter

instance : Decidable (LookupSafe s) := inferInstanceAs (Decidable (LogManager.InBounds _ _))

/-- A `Configure` asks for at least one flush logger and for no more than `n`. -/
def Within (n : UInt32) : Call T → Prop
  | .configure _ num => 1 ≤ num ∧ num ≤ n
  | .initFlushLoggers | .getBufferLogger _ => True

instance (n : UInt32) : ∀ c : Call T, Decidable (Within n c)
  | .configure _ num => inferInstanceAs (Decidable (1 ≤ num ∧ num ≤ n))
  | .initFlushLoggers | .getBufferLogger _ => isTrue trivial

/-! ## The flush loggers and their users -/

/-- There are `n` flush loggers. -/
def Staffed (n : UInt32) (s : State T) : Prop := s.manager.flushLoggers.length = n.toNat

theorem staffed_ready (loggingType : LoggingType) (n : UInt32) :
    Staffed n (ready T loggingType n) := by
  rw [Staffed, ready, length_initFlushLoggers rfl]
  rfl

/-- Only finitely many threads have a logger. -/
def Sparse (s : State T) : Prop := {t | s.bufferLogger t ≠ none}.Finite

theorem sparse_ready {loggingType : LoggingType} : Sparse (ready T loggingType n) :=
  Set.finite_empty.subset fun _ ht ↦ ht rfl

/-! ## A divisor in bounds -/

/-- There are `n` flush loggers, and the divisor is one of `1, …, n`. -/
structure Bounded (n : UInt32) (s : State T) : Prop where
  staffed : Staffed n s
  one_le : 1 ≤ s.manager.numFlushLoggers
  le : s.manager.numFlushLoggers ≤ n

theorem bounded_ready (loggingType : LoggingType) (hn : 1 ≤ n) :
    Bounded n (ready T loggingType n) := by
  have hnum : (ready T loggingType n).manager.numFlushLoggers = n :=
    numFlushLoggers_initFlushLoggers _
  exact ⟨staffed_ready loggingType n, hnum.symm ▸ hn, hnum.symm ▸ UInt32.le_refl n⟩

/-- With a divisor in bounds every value of the counter is safe. -/
theorem Bounded.inBounds (h : Bounded n s) (i : Int32) : s.manager.InBounds i := by
  refine inBounds_of_le (UInt32.le_iff_toNat_le.mp h.one_le) ?_ i
  rw [h.staffed]
  exact UInt32.le_iff_toNat_le.mp h.le

variable [DecidableEq T]

/-! ## The calls -/

theorem preserves_staffed (hn : 1 ≤ n) : (machine T).Preserves (Staffed n) := by
  intro s s' c hs hstep
  rw [UInt32.le_iff_toNat_le, UInt32.toNat_one] at hn
  rcases c with ⟨loggingType, num⟩ | _ | t
  · exact Option.some_inj.mp hstep ▸ hs
  · have hne : s.manager.flushLoggers.length ≠ 0 := by
      rw [hs]
      exact Nat.ne_of_gt hn
    refine Option.some_inj.mp hstep ▸ ?_
    rw [Staffed, initFlushLoggers_of_ne hne]
    exact hs
  · rcases step_getBufferLogger hstep with ⟨rfl, -⟩ | ⟨rfl, -⟩
    · exact hs
    · rw [Staffed, State.length_assigned_flushLoggers]
      exact hs

/-- A call that is `Within` the flush loggers goes through, and keeps the divisor in bounds. -/
theorem Bounded.exists_step (hn : 1 ≤ n) (h : Bounded n s) {c : Call T} (hc : Within n c) :
    ∃ s', (machine T).step s c = some s' ∧ Bounded n s' := by
  have hstaffed : ∀ {s'}, (machine T).step s c = some s' → Staffed n s' :=
    fun hstep ↦ preserves_staffed hn h.staffed hstep
  rcases c with ⟨loggingType, num⟩ | _ | t
  · exact ⟨_, rfl, hstaffed rfl, hc.1, hc.2⟩
  · have hnum := numFlushLoggers_initFlushLoggers s.manager
    exact ⟨_, rfl, hstaffed rfl, hnum.symm ▸ h.one_le, hnum.symm ▸ h.le⟩
  · cases hp : s.bufferLogger t with
    | some p => exact ⟨s, step_getBufferLogger_of_some hp, h⟩
    | none =>
      have hstep := step_getBufferLogger_of_none hp (h.inBounds _)
      exact ⟨_, hstep, hstaffed hstep, h.one_le, h.le⟩

/-! ## A divisor out of bounds -/

theorem Sparse.assigned (h : Sparse s) (t : T) : Sparse (s.assigned t) := by
  refine (h.insert t).subset fun u hu ↦ ?_
  by_cases heq : u = t
  · exact .inl heq
  · right
    rwa [Set.mem_ofPred, State.assigned_bufferLogger, Function.update_of_ne heq] at hu

theorem preserves_sparse : (machine T).Preserves Sparse := by
  intro s s' c hs hstep
  rcases c with ⟨loggingType, num⟩ | _ | t
  · exact Option.some_inj.mp hstep ▸ hs
  · exact Option.some_inj.mp hstep ▸ hs
  · rcases step_getBufferLogger hstep with ⟨rfl, -⟩ | ⟨rfl, -⟩
    · exact hs
    · exact hs.assigned t

/-- First calls bring the counter to any value, or one of them is out of bounds. -/
theorem exists_firstCalls [Infinite T] (k : ℕ) : ∀ {s : State T}, Sparse s → ∃ ts : List T,
    ∀ s', (machine T).run s (ts.map .getBufferLogger) = some s' →
      s'.manager.flushLoggerAssignCounter.toUInt32 =
          s.manager.flushLoggerAssignCounter.toUInt32 + UInt32.ofNat k ∧
        s'.manager.numFlushLoggers = s.manager.numFlushLoggers := by
  induction k with
  | zero =>
    intro s _
    refine ⟨[], fun s' hrun ↦ ?_⟩
    rw [← Option.some_inj.mp hrun]
    exact ⟨(UInt32.add_zero _).symm, rfl⟩
  | succ k ih =>
    intro s hs
    obtain ⟨t, ht⟩ := hs.exists_notMem
    rw [Set.mem_ofPred, not_not] at ht
    obtain ⟨ts, hts⟩ := ih (hs.assigned t)
    refine ⟨t :: ts, fun s' hrun ↦ ?_⟩
    rw [List.map_cons, Machine.run_cons, Option.bind_eq_some_iff] at hrun
    obtain ⟨u, hstep, hrest⟩ := hrun
    rcases step_getBufferLogger hstep with ⟨-, hp⟩ | ⟨rfl, -⟩
    · rw [ht] at hp
      cases hp
    · obtain ⟨hcounter, hnum⟩ := hts s' hrest
      refine ⟨?_, hnum⟩
      rw [hcounter, State.assigned_counter, Int32.toUInt32_add, UInt32.add_assoc,
        Nat.add_comm k, UInt32.ofNat_add]
      rfl

/-- A divisor out of bounds is met by a lookup out of bounds. -/
theorem exists_unsafe [Infinite T] (hsparse : Sparse s)
    (hs : ¬(1 ≤ s.manager.numFlushLoggers ∧ s.manager.numFlushLoggers ≤ n)) :
    ∃ ts : List T, ∀ s', (machine T).run s (ts.map .getBufferLogger) = some s' →
      Staffed n s' → ¬LookupSafe s' := by
  by_cases hone : 1 ≤ s.manager.numFlushLoggers
  · have hlt : n.toNat < s.manager.numFlushLoggers.toNat := by
      rw [← UInt32.lt_iff_toNat_lt]
      exact UInt32.not_le.mp fun hle ↦ hs ⟨hone, hle⟩
    -- the turn that asks for the flush logger after the last one
    obtain ⟨ts, hts⟩ := exists_firstCalls
      (n - s.manager.flushLoggerAssignCounter.toUInt32).toNat hsparse
    refine ⟨ts, fun s' hrun hstaffed' hsafe ↦ ?_⟩
    obtain ⟨hcounter, hnum⟩ := hts s' hrun
    rw [UInt32.ofNat_toNat, UInt32.add_comm, UInt32.sub_add_cancel] at hcounter
    have hindex := hsafe.2
    rw [hstaffed', flushLoggerIndex, hcounter, hnum, UInt32.toNat_mod, Nat.mod_eq_of_lt hlt]
      at hindex
    exact Nat.lt_irrefl _ hindex
  · refine ⟨[], fun s' hrun _ hsafe ↦ hone ?_⟩
    rw [← Option.some_inj.mp hrun] at hsafe
    rw [UInt32.le_iff_toNat_le, UInt32.toNat_one]
    exact Nat.pos_of_ne_zero fun h0 ↦ hsafe.1 (UInt32.toNat.inj h0)

/-! ## The round-robin lookup -/

/-- **The lookup is safe exactly while `Configure` stays within the flush loggers.** A sequence of
calls after the first `InitFlushLoggers`, and everything that any threads calling `GetBufferLogger`
make of each of its prefixes, runs and leaves the next lookup in bounds, if and only if every
`Configure` in it asks for at least one flush logger and for no more than there are. -/
theorem lookupSafe_iff_within [Infinite T] (loggingType : LoggingType) (hn : 1 ≤ n)
    (calls : List (Call T)) :
    (∀ pre, pre <+: calls → ∀ ts : List T, ∃ s,
        (machine T).run (ready T loggingType n) (pre ++ ts.map .getBufferLogger) = some s ∧
          LookupSafe s) ↔
      ∀ c ∈ calls, Within n c := by
  constructor
  · intro h c hc
    obtain ⟨pre, suf, rfl⟩ := List.append_of_mem hc
    have hprefix : pre ++ [c] <+: pre ++ c :: suf := ⟨suf, by rw [List.append_assoc]; rfl⟩
    rcases c with ⟨loggingType', num⟩ | _ | t
    · obtain ⟨s, hpre, -⟩ := h pre (List.prefix_append ..) []
      rw [List.map_nil, List.append_nil] at hpre
      have hrun : (machine T).run (ready T loggingType n) (pre ++ [.configure loggingType' num]) =
          some { s with manager := s.manager.configure loggingType' num } :=
        Machine.run_concat hpre _
      by_contra hnot
      -- the first calls that bring the divisor to light
      obtain ⟨ts, hts⟩ := exists_unsafe (preserves_sparse.run sparse_ready hrun) hnot
      obtain ⟨s', hrun', hsafe⟩ := h _ hprefix ts
      refine hts s' ?_ ((preserves_staffed hn).run (staffed_ready loggingType n) hrun') hsafe
      rwa [Machine.run_append, hrun, Option.bind_some] at hrun'
    · trivial
    · trivial
  · intro h pre hpre ts
    have hwithin : ∀ c ∈ pre ++ ts.map .getBufferLogger, Within n c := by
      intro c hc
      rcases List.mem_append.mp hc with hc | hc
      · exact h c (hpre.subset hc)
      · obtain ⟨t, -, rfl⟩ := List.mem_map.mp hc
        trivial
    obtain ⟨s, hrun, hs⟩ := Machine.exists_run (fun s c hs hc ↦ Bounded.exists_step hn hs hc)
      (bounded_ready loggingType hn) hwithin
    exact ⟨s, hrun, hs.inBounds _⟩

theorem lookupSafe_after_smaller :
    ∃ s, (machine ℕ).run (ready ℕ .ssdWal 3)
        ([.configure .hddWal 2, .initFlushLoggers] ++ [4, 9, 4, 7].map .getBufferLogger) = some s ∧
      LookupSafe s :=
  (lookupSafe_iff_within .ssdWal (by decide) [.configure .hddWal 2, .initFlushLoggers]).mpr
    (by decide) _ (List.prefix_refl _) [4, 9, 4, 7]

/-- With one flush logger, `Configure(type, 0)` makes the next first call divide by zero, and
`Configure(type, 2)` and one first call make the next one index outside `flush_loggers`. -/
theorem configure_breaks_lookup :
    (∃ s, (machine ℕ).run (ready ℕ .ssdWal 1) [.configure .ssdWal 0] = some s ∧
      s.manager.numFlushLoggers = 0 ∧ ¬LookupSafe s) ∧
    ∃ s, (machine ℕ).run (ready ℕ .ssdWal 1) [.configure .ssdWal 2, .getBufferLogger 0] = some s ∧
      s.manager.flushLoggers.length = 1 ∧
      s.manager.flushLoggerIndex s.manager.flushLoggerAssignCounter = 1 ∧ ¬LookupSafe s := by
  refine ⟨⟨_, rfl, rfl, ?_⟩, ⟨_, rfl, rfl, ?_, ?_⟩⟩
  all_goals decide

end LogManager

end FulgurLogging
