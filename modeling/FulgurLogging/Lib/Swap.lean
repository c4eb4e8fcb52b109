import FulgurLogging.Lib.Machine
import Mathlib.Data.Fintype.Card
import Mathlib.Data.List.Nodup

/-!
# Compare and swap

Threads that load a cell, and then store a new value if the cell still has the one they loaded. The
loading and the swap are two steps, so a call fails when another has succeeded in between.

Every failure is paid for by a success. A call is stale when the cell no longer has what it loaded;
only a success makes calls stale, at most one of each other thread, and every failure is a stale
call that ends. The converse needs that no value comes back: then, and not in general, a call
succeeds only if no other call did in between (`undisturbed_run`).
-/

namespace Swap

open Transition

/-- A call, with the number of successful calls before its loading. -/
structure Call (V : Type*) where
  expected : V
  value : V
  seen : ℕ
deriving DecidableEq

/-- A call that has returned, with its thread and what it returned. -/
structure Return (T V : Type*) where
  thread : T
  success : Bool
  call : Call V
deriving DecidableEq

variable {T V : Type*}

/-- The cell, the calls between their two steps, and the calls that have returned, the earliest
first. -/
structure State (T V : Type*) where
  cell : V
  call : T → Option (Call V)
  returned : List (Return T V)

inductive Action (T V : Type*)
  | load (t : T) (value : V)
  | swap (t : T)

/-- The successful calls, the earliest first. -/
def updates (returned : List (Return T V)) : List (Call V) :=
  (returned.filter Return.success).map Return.call

def failures (returned : List (Return T V)) : ℕ :=
  returned.countP fun r ↦ !r.success

/-- Nothing has been called. -/
def init (T : Type*) (v : V) : State T V := ⟨v, fun _ ↦ none, []⟩

/-- A call that loads the present value. -/
def State.loading (s : State T V) (value : V) : Call V :=
  ⟨s.cell, value, (updates s.returned).length⟩

section Step

variable [DecidableEq T]

/-- The call of `t` returns `b`, and leaves `cell`. -/
def State.leave (s : State T V) (t : T) (c : Call V) (b : Bool) (cell : V) : State T V :=
  ⟨cell, Function.update s.call t none, s.returned ++ [⟨t, b, c⟩]⟩

variable [DecidableEq V]

def step (s : State T V) : Action T V → Option (State T V)
  | .load t value =>
      match s.call t with
      | none => some { s with call := Function.update s.call t (some (s.loading value)) }
      | some _ => none
  | .swap t =>
      match s.call t with
      | none => none
      | some c =>
          if s.cell = c.expected then
            some (s.leave t c true c.value)
          else
            some (s.leave t c false s.cell)

variable (T V) in
def machine : Machine (State T V) (Action T V) := ⟨step⟩

end Step

/-! ## The returned calls -/

section Returned

variable (returned : List (Return T V)) (t : T) (c : Call V)

@[simp] theorem updates_concat_true :
    updates (returned ++ [⟨t, true, c⟩]) = updates returned ++ [c] := by
  rw [updates, updates, List.filter_append, List.map_append]
  rfl

@[simp] theorem updates_concat_false :
    updates (returned ++ [⟨t, false, c⟩]) = updates returned := by
  rw [updates, updates, List.filter_append, List.map_append]
  exact List.append_nil _

@[simp] theorem failures_concat_true :
    failures (returned ++ [⟨t, true, c⟩]) = failures returned := by
  rw [failures, failures, List.countP_append]
  rfl

@[simp] theorem failures_concat_false :
    failures (returned ++ [⟨t, false, c⟩]) = failures returned + 1 := by
  rw [failures, failures, List.countP_append]
  rfl

end Returned

/-- Each update replaces what the one before it stored. -/
def Leads : V → List (Call V) → V → Prop
  | v, [], w => v = w
  | v, c :: cs, w => c.expected = v ∧ Leads c.value cs w

theorem Leads.concat {v w : V} {cs : List (Call V)} {c : Call V} (h : Leads v cs w)
    (hc : c.expected = w) : Leads v (cs ++ [c]) c.value := by
  induction cs generalizing v with
  | nil => exact ⟨hc.trans h.symm, rfl⟩
  | cons d cs ih => exact ⟨h.1, ih h.2⟩

section Update

variable [DecidableEq T] {call : T → Option (Call V)} {t u : T} {d : Call V}

/-- The calls after one thread has gone on. -/
theorem mem_update {o : Option (Call V)} (hd : d ∈ Function.update call t o u) :
    (u = t ∧ d ∈ o) ∨ (u ≠ t ∧ d ∈ call u) := by
  by_cases hu : u = t
  · rw [hu, Function.update_self] at hd
    exact .inl ⟨hu, hd⟩
  · rw [Function.update_of_ne hu] at hd
    exact .inr ⟨hu, hd⟩

/-- The calls after one has returned are calls from before. -/
theorem mem_of_mem_update_none (hd : d ∈ Function.update call t none u) : u ≠ t ∧ d ∈ call u := by
  rcases mem_update hd with ⟨-, hd⟩ | h
  · exact absurd hd (Option.not_mem_none d)
  · exact h

end Update

/-! ## What a step can do -/

section Runs

variable [DecidableEq T] [DecidableEq V] {s s' : State T V} {a : Action T V} {v : V}

theorem step_cases (h : step s a = some s') :
    (∃ t value, a = .load t value ∧ s.call t = none ∧
      s' = { s with call := Function.update s.call t (some (s.loading value)) }) ∨
    (∃ t c, a = .swap t ∧ s.call t = some c ∧ s.cell = c.expected ∧
      s' = s.leave t c true c.value) ∨
    (∃ t c, a = .swap t ∧ s.call t = some c ∧ s.cell ≠ c.expected ∧
      s' = s.leave t c false s.cell) := by
  cases a with
  | load t value =>
    cases hc : s.call t with
    | none =>
      simp only [step, hc, Option.some_inj] at h
      exact .inl ⟨t, value, rfl, hc, h.symm⟩
    | some c => simp only [step, hc, reduceCtorEq] at h
  | swap t =>
    cases hc : s.call t with
    | none => simp only [step, hc, reduceCtorEq] at h
    | some c =>
      by_cases heq : s.cell = c.expected
      · simp only [step, hc, if_pos heq, Option.some_inj] at h
        exact .inr (.inl ⟨t, c, rfl, hc, heq, h.symm⟩)
      · simp only [step, hc, if_neg heq, Option.some_inj] at h
        exact .inr (.inr ⟨t, c, rfl, hc, heq, h.symm⟩)

theorem leads_preserved : (machine T V).Preserves fun s ↦ Leads v (updates s.returned) s.cell := by
  intro s s' a h hstep
  obtain ⟨t, value, -, -, rfl⟩ | ⟨t, c, -, -, heq, rfl⟩ | ⟨t, c, -, -, -, rfl⟩ := step_cases hstep
  · exact h
  · rw [State.leave, updates_concat_true]
    exact h.concat heq.symm
  · rw [State.leave, updates_concat_false]
    exact h

/-- **No update is lost.** The successful calls lead from the first value of the cell to the
present one. -/
theorem leads_run {as : List (Action T V)} (hrun : (machine T V).run (init T v) as = some s) :
    Leads v (updates s.returned) s.cell :=
  leads_preserved.run (s := init T v) rfl hrun

/-! ## Each thread's own values -/

/-- The value that a thread calls with, if it does so in this step. -/
def Action.value (t : T) : Action T V → Option V
  | .load u value => if u = t then some value else none
  | .swap _ => none

/-- The values that a thread has called with, the earliest first. -/
def loads (t : T) (as : List (Action T V)) : List V := as.filterMap (Action.value t)

/-- The values of a thread's calls that have returned, the earliest first. -/
def valuesOf (returned : List (Return T V)) (t : T) : List V :=
  (returned.filter fun r ↦ r.thread = t).map fun r ↦ r.call.value

/-- These, and the value of the call that the thread is in. -/
def values (s : State T V) (t : T) : List V :=
  valuesOf s.returned t ++ (s.call t).toList.map Call.value

omit [DecidableEq V] in
/-- A call returns with its own value. -/
theorem values_leave {t : T} {c : Call V} (hc : s.call t = some c) (b : Bool) (cell : V) (u : T) :
    values (s.leave t c b cell) u = values s u := by
  change valuesOf (s.returned ++ [⟨t, b, c⟩]) u ++
    (Function.update s.call t none u).toList.map Call.value = _
  rw [values, valuesOf, valuesOf, List.filter_append, List.map_append]
  by_cases hu : t = u
  · subst hu
    rw [List.filter_cons_of_pos (by exact decide_eq_true rfl), Function.update_self, hc]
    exact List.append_nil _
  · rw [List.filter_cons_of_neg (by rwa [decide_eq_true_eq]), Function.update_of_ne (Ne.symm hu)]
    exact congrArg (· ++ _) (List.append_nil _)

/-- **The step lemma.** -/
theorem values_step (h : step s a = some s') (u : T) :
    values s' u = values s u ++ (a.value u).toList := by
  obtain ⟨t, value, rfl, hc, rfl⟩ | ⟨t, c, rfl, hc, -, rfl⟩ | ⟨t, c, rfl, hc, -, rfl⟩ :=
    step_cases h
  · change valuesOf s.returned u ++
      (Function.update s.call t (some (s.loading value)) u).toList.map Call.value = _
    rw [values, List.append_assoc]
    congr 1
    by_cases hu : t = u
    · subst hu
      rw [Function.update_self, hc, Action.value, if_pos rfl]
      rfl
    · rw [Function.update_of_ne (Ne.symm hu), Action.value, if_neg hu]
      exact (List.append_nil _).symm
  · rw [values_leave hc]
    exact (List.append_nil _).symm
  · rw [values_leave hc]
    exact (List.append_nil _).symm

/-- **The run lemma.** The calls of a thread store what it has called with, one after the other. -/
theorem values_run {as : List (Action T V)} (hrun : (machine T V).run (init T v) as = some s)
    (t : T) : values s t = loads t as := by
  have hstep : ∀ (as : List (Action T V)) {s s' : State T V},
      (machine T V).run s as = some s' → values s' t = values s t ++ loads t as := by
    intro as
    induction as with
    | nil =>
      intro s s' hrun
      rw [Machine.run_nil, Option.some_inj] at hrun
      rw [hrun]
      exact (List.append_nil _).symm
    | cons a as ih =>
      intro s s' hrun
      rw [Machine.run_cons, Option.bind_eq_some_iff] at hrun
      obtain ⟨u, hfirst, hrest⟩ := hrun
      have hloads : loads t (a :: as) = (a.value t).toList ++ loads t as := by
        rw [loads, List.filterMap_cons]
        cases a.value t <;> rfl
      rw [ih hrest, values_step hfirst, hloads, List.append_assoc]
  exact hstep as hrun

end Runs

/-! ## Failures -/

section Failures

/-- The cell does not have what the call loaded. -/
def Stale (cell : V) (call : Option (Call V)) : Prop := ∃ c, call = some c ∧ cell ≠ c.expected

theorem not_stale_none (cell : V) : ¬Stale cell none := by
  rintro ⟨c, hc, -⟩
  exact absurd hc nofun

variable [DecidableEq V] [Fintype T] {s s' : State T V} {t : T} {v : V}

instance (cell : V) (call : Option (Call V)) : Decidable (Stale cell call) :=
  decidable_of_iff (∃ c ∈ call, cell ≠ c.expected) Iff.rfl

/-- The threads whose calls are stale. -/
def stale (s : State T V) : Finset T := Finset.univ.filter fun t ↦ Stale s.cell (s.call t)

theorem mem_stale : t ∈ stale s ↔ Stale s.cell (s.call t) := by
  rw [stale, Finset.mem_filter, and_iff_right (Finset.mem_univ t)]

variable [DecidableEq T]

/-- A thread whose call is not stale after the step, with the others as they were. -/
theorem stale_subset_erase {call : Option (Call V)} (hcall : ¬Stale s.cell call)
    (returned : List (Return T V)) :
    stale ⟨s.cell, Function.update s.call t call, returned⟩ ⊆ (stale s).erase t := by
  intro u hu
  have hu : Stale s.cell (Function.update s.call t call u) := mem_stale.mp hu
  by_cases hut : u = t
  · rw [hut, Function.update_self] at hu
    exact absurd hu hcall
  · rw [Function.update_of_ne hut] at hu
    exact Finset.mem_erase.mpr ⟨hut, mem_stale.mpr hu⟩

/-- Every failure, and every call that is going to fail as things stand, is paid for. -/
def Paid (s : State T V) : Prop :=
  failures s.returned + (stale s).card ≤ (Fintype.card T - 1) * (updates s.returned).length

theorem paid_preserved : (machine T V).Preserves Paid := by
  intro s s' a h hstep
  rw [Paid] at h ⊢
  obtain ⟨t, value, -, -, rfl⟩ | ⟨t, c, -, -, -, rfl⟩ | ⟨t, c, -, hc, hne, rfl⟩ :=
    step_cases hstep
  · refine le_trans (Nat.add_le_add_left (Finset.card_le_card ?_) _) h
    -- a call that has just loaded the cell is not stale
    have hfresh : ¬Stale s.cell (some (s.loading value)) := by
      rintro ⟨c, hc, hne⟩
      cases hc
      exact hne rfl
    exact (stale_subset_erase hfresh _).trans (Finset.erase_subset t _)
  · -- whatever the others have loaded, at most one call of each of them is stale now
    rw [State.leave, failures_concat_true, updates_concat_true, List.length_append,
      List.length_singleton, Nat.mul_succ]
    refine Nat.add_le_add (le_trans (Nat.le_add_right _ _) h) ?_
    rw [← Finset.card_univ, ← Finset.card_erase_of_mem (Finset.mem_univ t)]
    refine Finset.card_le_card fun u hu ↦ Finset.mem_erase.mpr ⟨?_, Finset.mem_univ u⟩
    rintro rfl
    have hu : Stale c.value (Function.update s.call u none u) := mem_stale.mp hu
    rw [Function.update_self] at hu
    exact not_stale_none _ hu
  · -- the failure was counted among the stale calls, and leaves them
    rw [State.leave, failures_concat_false, updates_concat_false]
    have ht : t ∈ stale s := mem_stale.mpr ⟨c, hc, hne⟩
    have hle := Finset.card_le_card (stale_subset_erase (t := t) (not_stale_none s.cell)
      (s.returned ++ [⟨t, false, c⟩]))
    rw [Finset.card_erase_of_mem ht] at hle
    have hpos := Finset.card_pos.mpr ⟨t, ht⟩
    omega

/-- **Failures are paid for by successes.** -/
theorem failures_le_run {as : List (Action T V)}
    (hrun : (machine T V).run (init T v) as = some s) :
    failures s.returned ≤ (Fintype.card T - 1) * (updates s.returned).length := by
  have hinit : Paid (init T v) := by
    have hnone : stale (init T v) = ∅ :=
      Finset.filter_eq_empty_iff.mpr fun t _ ↦ not_stale_none v
    rw [Paid, hnone]
    exact le_refl 0
  exact (Nat.le_add_right _ _).trans (paid_preserved.run hinit hrun)

end Failures

/-! ## Values that do not come back -/

/-- The values of the cell, the earliest first. -/
def history (v : V) (returned : List (Return T V)) : List V :=
  v :: (updates returned).map Call.value

/-- A call is to store a value that the cell never had, and that no other call is to store. -/
def Fresh (v : V) (s : State T V) : Action T V → Prop
  | .load _ value => value ∉ history v s.returned ∧ ∀ t, ∀ c ∈ s.call t, c.value ≠ value
  | .swap _ => True

instance [DecidableEq V] [Fintype T] (v : V) (s : State T V) :
    ∀ a, Decidable (Fresh v s a)
  | .load _ value => inferInstanceAs
      (Decidable (value ∉ history v s.returned ∧ ∀ t, ∀ c ∈ s.call t, c.value ≠ value))
  | .swap _ => isTrue trivial

/-- Each call returned `true` if and only if no other call had done so since its loading. -/
def Undisturbed (returned : List (Return T V)) : Prop :=
  ∀ pre r post, returned = pre ++ r :: post →
    (r.success = true ↔ r.call.seen = (updates pre).length)

/-- What the runs of fresh calls preserve. -/
structure Distinct (v : V) (s : State T V) : Prop where
  nodup : (history v s.returned).Nodup
  present : (history v s.returned)[(updates s.returned).length]? = some s.cell
  expected : ∀ t, ∀ c ∈ s.call t, (history v s.returned)[c.seen]? = some c.expected
  value : ∀ t, ∀ c ∈ s.call t, c.value ∉ history v s.returned
  apart : ∀ t u, ∀ c ∈ s.call t, ∀ d ∈ s.call u, c.value = d.value → t = u
  undisturbed : Undisturbed s.returned

theorem history_concat_true (v : V) (returned : List (Return T V)) (t : T) (c : Call V) :
    history v (returned ++ [⟨t, true, c⟩]) = history v returned ++ [c.value] := by
  rw [history, updates_concat_true, List.map_append]
  rfl

theorem history_concat_false (v : V) (returned : List (Return T V)) (t : T) (c : Call V) :
    history v (returned ++ [⟨t, false, c⟩]) = history v returned := by
  rw [history, updates_concat_false, history]

theorem length_history (v : V) (returned : List (Return T V)) :
    (history v returned).length = (updates returned).length + 1 := by
  rw [history, List.length_cons, List.length_map]

theorem Undisturbed.concat {returned : List (Return T V)} {r : Return T V}
    (h : Undisturbed returned)
    (hr : r.success = true ↔ r.call.seen = (updates returned).length) :
    Undisturbed (returned ++ [r]) := by
  intro pre r' post heq
  -- the call is the new one, or it was among the earlier ones with less after it
  rcases List.eq_nil_or_concat post with rfl | ⟨post, last, rfl⟩
  · obtain ⟨rfl, hlast⟩ := List.append_inj' heq rfl
    cases hlast
    exact hr
  · rw [List.concat_eq_append, ← List.cons_append, ← List.append_assoc] at heq
    obtain ⟨rfl, -⟩ := List.append_inj' heq rfl
    exact h pre r' post rfl

namespace Distinct

variable {v : V} {s s' : State T V} {t : T} {c : Call V}

/-- Positions of the same value are the same. -/
theorem expected_iff (h : Distinct v s) (hc : s.call t = some c) :
    s.cell = c.expected ↔ c.seen = (updates s.returned).length := by
  have hseen := h.expected t c hc
  constructor
  · intro heq
    have hlt : c.seen < (history v s.returned).length := (List.getElem?_eq_some_iff.mp hseen).1
    exact (List.getElem?_inj hlt h.nodup).mp (by rw [hseen, h.present, heq])
  · intro heq
    rw [heq, h.present, Option.some_inj] at hseen
    exact hseen

theorem init (v : V) : Distinct v (Swap.init T v) where
  nodup := List.nodup_singleton v
  present := rfl
  expected _ _ hc := absurd hc (Option.not_mem_none _)
  value _ _ hc := absurd hc (Option.not_mem_none _)
  apart _ _ _ hc := absurd hc (Option.not_mem_none _)
  undisturbed pre r post heq := absurd heq.symm
    (List.append_ne_nil_of_right_ne_nil pre (List.cons_ne_nil r post))

variable [DecidableEq T]

theorem load (h : Distinct v s) {value : V} (hfresh : Fresh v s (.load t value)) :
    Distinct v { s with call := Function.update s.call t (some (s.loading value)) } := by
  obtain ⟨hnew, hothers⟩ := hfresh
  refine ⟨h.nodup, h.present, fun u d hd ↦ ?_, fun u d hd ↦ ?_, fun u w d hd e he heq ↦ ?_,
    h.undisturbed⟩
  · obtain ⟨-, ⟨⟩⟩ | ⟨-, hd⟩ := mem_update hd
    · exact h.present
    · exact h.expected u d hd
  · obtain ⟨-, ⟨⟩⟩ | ⟨-, hd⟩ := mem_update hd
    · exact hnew
    · exact h.value u d hd
  · obtain ⟨rfl, ⟨⟩⟩ | ⟨-, hd⟩ := mem_update hd
    · obtain ⟨rfl, -⟩ | ⟨-, he⟩ := mem_update he
      · rfl
      · exact absurd heq.symm (hothers w e he)
    · obtain ⟨-, ⟨⟩⟩ | ⟨-, he⟩ := mem_update he
      · exact absurd heq (hothers u d hd)
      · exact h.apart u w d hd e he heq

theorem succeed (h : Distinct v s) (hc : s.call t = some c) (heq : s.cell = c.expected) :
    Distinct v (s.leave t c true c.value) := by
  refine ⟨?_, ?_, fun u d hd ↦ ?_, fun u d hd ↦ ?_, fun u w d hd e he ↦ ?_,
    h.undisturbed.concat (iff_of_true rfl ((h.expected_iff hc).mp heq))⟩
  · rw [State.leave, history_concat_true, ← List.concat_eq_append, List.nodup_concat]
    exact ⟨h.value t c hc, h.nodup⟩
  · rw [State.leave, history_concat_true, updates_concat_true, List.length_append,
      List.length_singleton, ← length_history v s.returned, List.getElem?_concat_length]
  · obtain ⟨-, hd⟩ := mem_of_mem_update_none hd
    have hseen := h.expected u d hd
    have hlt := (List.getElem?_eq_some_iff.mp hseen).1
    rw [State.leave, history_concat_true, List.getElem?_append_left hlt, hseen]
  · -- the value just stored is not that of another call
    obtain ⟨hu, hd⟩ := mem_of_mem_update_none hd
    rw [State.leave, history_concat_true, List.mem_append, List.mem_singleton, not_or]
    exact ⟨h.value u d hd, fun hval ↦ hu (h.apart u t d hd c hc hval)⟩
  · exact h.apart u w d (mem_of_mem_update_none hd).2 e (mem_of_mem_update_none he).2

theorem fail (h : Distinct v s) (hc : s.call t = some c) (hne : s.cell ≠ c.expected) :
    Distinct v (s.leave t c false s.cell) := by
  refine ⟨?_, ?_, fun u d hd ↦ ?_, fun u d hd ↦ ?_, fun u w d hd e he ↦ ?_,
    h.undisturbed.concat (iff_of_false Bool.false_ne_true (mt (h.expected_iff hc).mpr hne))⟩
  · rw [State.leave, history_concat_false]
    exact h.nodup
  · rw [State.leave, history_concat_false, updates_concat_false]
    exact h.present
  · rw [State.leave, history_concat_false]
    exact h.expected u d (mem_of_mem_update_none hd).2
  · rw [State.leave, history_concat_false]
    exact h.value u d (mem_of_mem_update_none hd).2
  · exact h.apart u w d (mem_of_mem_update_none hd).2 e (mem_of_mem_update_none he).2

end Distinct

/-- **When no value comes back**, a call returns `true` if and only if no other call did since its
loading. -/
theorem undisturbed_run [DecidableEq T] [DecidableEq V] {v : V} {s : State T V}
    {as : List (Action T V)} (hfresh : (machine T V).Along (Fresh v) (init T v) as)
    (hrun : (machine T V).run (init T v) as = some s) : Undisturbed s.returned := by
  have hstep : (machine T V).PreservesUnder (Fresh v) (Distinct v) := by
    intro s s' a h ha hstep
    obtain ⟨t, value, rfl, -, rfl⟩ | ⟨t, c, -, hc, heq, rfl⟩ | ⟨t, c, -, hc, hne, rfl⟩ :=
      step_cases hstep
    · exact h.load ha
    · exact h.succeed hc heq
    · exact h.fail hc hne
  exact (hstep.run (.init v) hfresh hrun).undisturbed

end Swap
