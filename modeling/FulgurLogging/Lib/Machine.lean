import Mathlib.Data.List.Basic
import Mathlib.Data.Option.Basic

/-!
# Machines and their schedules

A machine is a partial step function: an action taken in a state leads to one next state, or is
not enabled there. A system of several threads is a machine whose actions say which thread moves,
so that an interleaving is nothing but a list of actions, and a claim about every interleaving is
a claim about every list.

Running is kept executable. A schedule that breaks a property is then evaluated step by step,
while a property of all schedules goes through one of the two induction rules below: `Preserves`
for invariants of every run, `PreservesUnder` for invariants of the runs whose steps are all taken
in states meeting a side condition.

## Simulation

`simulates_run` carries a step-by-step simulation to whole runs. The simulated machine may answer
one step with any number of its own, none included, which is how an intermediate program point of
a fine-grained implementation is matched with no step of its specification.
-/

namespace Transition

/-- A partial step function; `none` says that the action is not enabled. -/
structure Machine (σ α : Type*) where
  /-- The state an action leads to. -/
  step : σ → α → Option σ

namespace Machine

variable {σ α τ γ : Type*} (M : Machine σ α)

/-- The state a schedule leads to, `none` once one of its actions is not enabled. -/
def run : σ → List α → Option σ
  | s, [] => some s
  | s, a :: as => (M.step s a).bind fun s' ↦ run s' as

variable {M}

@[simp] theorem run_nil (s : σ) : M.run s [] = some s := rfl

theorem run_cons (s : σ) (a : α) (as : List α) :
    M.run s (a :: as) = (M.step s a).bind fun s' ↦ M.run s' as := rfl

theorem run_cons_of_step {s s' : σ} {a : α} (h : M.step s a = some s') (as : List α) :
    M.run s (a :: as) = M.run s' as := by
  rw [run_cons, h, Option.bind_some]

theorem run_append (s : σ) (as bs : List α) :
    M.run s (as ++ bs) = (M.run s as).bind fun s' ↦ M.run s' bs := by
  induction as generalizing s with
  | nil => rw [List.nil_append, run_nil, Option.bind_some]
  | cons a as ih =>
    rw [List.cons_append, run_cons, run_cons]
    cases M.step s a with
    | none => rfl
    | some s' => rw [Option.bind_some, Option.bind_some, ih]

theorem run_concat {s s' : σ} {as : List α} (h : M.run s as = some s') (a : α) :
    M.run s (as ++ [a]) = M.step s' a := by
  rw [run_append, h, Option.bind_some, run_cons]
  cases M.step s' a <;> rfl

/-! ## Invariants -/

/-- Every step from a state satisfying `I` ends in one. -/
def Preserves (M : Machine σ α) (I : σ → Prop) : Prop :=
  ∀ ⦃s s' : σ⦄ ⦃a : α⦄, I s → M.step s a = some s' → I s'

/-- **The invariant rule.** What every step preserves holds at the end of every run. -/
theorem Preserves.run {I : σ → Prop} (h : M.Preserves I) :
    ∀ {as : List α} {s s' : σ}, I s → M.run s as = some s' → I s' := by
  intro as
  induction as with
  | nil =>
    intro s s' hs hrun
    rw [run_nil, Option.some_inj] at hrun
    exact hrun ▸ hs
  | cons a as ih =>
    intro s s' hs hrun
    rw [run_cons, Option.bind_eq_some_iff] at hrun
    obtain ⟨t, hstep, hrest⟩ := hrun
    exact ih (h hs hstep) hrest

/-! ## Invariants of the runs that meet a side condition -/

/-- Every step of the schedule is taken from a state in which `C` holds of it. -/
def Along (M : Machine σ α) (C : σ → α → Prop) : σ → List α → Prop
  | _, [] => True
  | s, a :: as => C s a ∧ ∀ s', M.step s a = some s' → Along M C s' as

instance decidableAlong {C : σ → α → Prop} [∀ s a, Decidable (C s a)] :
    ∀ (s : σ) (as : List α), Decidable (M.Along C s as)
  | _, [] => isTrue trivial
  | s, a :: as =>
    have : ∀ s', Decidable (M.Along C s' as) := fun s' ↦ decidableAlong s' as
    decidable_of_iff (C s a ∧ ∀ s' ∈ M.step s a, M.Along C s' as) Iff.rfl

/-- Every step taken where `C` holds, from a state satisfying `I`, ends in one. -/
def PreservesUnder (M : Machine σ α) (C : σ → α → Prop) (I : σ → Prop) : Prop :=
  ∀ ⦃s s' : σ⦄ ⦃a : α⦄, I s → C s a → M.step s a = some s' → I s'

/-- A side condition on the actions alone. -/
theorem along_of_forall_mem {C : α → Prop} :
    ∀ {as : List α} {s : σ}, (∀ a ∈ as, C a) → M.Along (fun _ a ↦ C a) s as := by
  intro as
  induction as with
  | nil => exact fun _ ↦ trivial
  | cons a as ih =>
    exact fun h ↦ ⟨h a List.mem_cons_self, fun _ _ ↦ ih fun b hb ↦ h b (List.mem_cons_of_mem a hb)⟩

/-- **The conditional invariant rule.** -/
theorem PreservesUnder.run {C : σ → α → Prop} {I : σ → Prop} (h : M.PreservesUnder C I) :
    ∀ {as : List α} {s s' : σ}, I s → M.Along C s as → M.run s as = some s' → I s' := by
  intro as
  induction as with
  | nil =>
    intro s s' hs _ hrun
    rw [run_nil, Option.some_inj] at hrun
    exact hrun ▸ hs
  | cons a as ih =>
    intro s s' hs hC hrun
    rw [run_cons, Option.bind_eq_some_iff] at hrun
    obtain ⟨t, hstep, hrest⟩ := hrun
    exact ih (h hs hC.1 hstep) (hC.2 t hstep) hrest

/-- Side conditions that agree in the states satisfying an invariant agree along every schedule. -/
theorem along_congr {C D : σ → α → Prop} {I : σ → Prop} (h : M.PreservesUnder C I)
    (hCD : ∀ ⦃s : σ⦄ ⦃a : α⦄, I s → (C s a ↔ D s a)) :
    ∀ {as : List α} {s : σ}, I s → (M.Along C s as ↔ M.Along D s as) := by
  intro as
  induction as with
  | nil => exact fun _ ↦ Iff.rfl
  | cons a as ih =>
    intro s hs
    constructor
    · rintro ⟨hC, hrest⟩
      exact ⟨(hCD hs).mp hC, fun t hstep ↦ (ih (h hs hC hstep)).mp (hrest t hstep)⟩
    · rintro ⟨hD, hrest⟩
      have hC := (hCD hs).mpr hD
      exact ⟨hC, fun t hstep ↦ (ih (h hs hC hstep)).mpr (hrest t hstep)⟩

/-- A property of every state a schedule passes through, as a condition on its steps. -/
theorem forall_prefix_iff {P : σ → Prop} : ∀ {as : List α} {s : σ},
    (∀ pre t, pre <+: as → M.run s pre = some t → P t) ↔
      P s ∧ M.Along (fun t a ↦ ∀ u, M.step t a = some u → P u) s as := by
  intro as
  induction as with
  | nil =>
    intro s
    constructor
    · exact fun h ↦ ⟨h [] s List.nil_prefix rfl, trivial⟩
    · rintro ⟨hs, -⟩ pre t hpre hrun
      rw [List.prefix_nil.mp hpre, run_nil, Option.some_inj] at hrun
      exact hrun ▸ hs
  | cons a as ih =>
    intro s
    constructor
    · intro h
      refine ⟨h [] s List.nil_prefix rfl, fun t hstep ↦ ?_, fun t hstep ↦ (ih.mp ?_).2⟩
      · exact h [a] t (List.prefix_append [a] as) (by rw [run_cons_of_step hstep, run_nil])
      · intro pre u hpre hrun
        exact h (a :: pre) u ((List.prefix_cons_inj a).mpr hpre)
          (by rw [run_cons_of_step hstep, hrun])
    · rintro ⟨hs, hstep, hrest⟩ pre u hpre hrun
      cases pre with
      | nil =>
        rw [run_nil, Option.some_inj] at hrun
        exact hrun ▸ hs
      | cons b pre =>
        obtain ⟨rfl, htail⟩ := List.cons_prefix_cons.mp hpre
        rw [run_cons, Option.bind_eq_some_iff] at hrun
        obtain ⟨t, hfirst, hrun⟩ := hrun
        exact ih.mpr ⟨hstep t hfirst, hrest t hfirst⟩ pre u htail hrun

/-! ## Progress -/

/-- **The progress rule**, for machines that agree. When an action meeting `C` leads all of them
from a state satisfying `I` to the same state satisfying `I`, so does a schedule of such actions.
-/
theorem exists_common_run {ι : Type*} {N : ι → Machine σ α} {C : α → Prop} {I : σ → Prop}
    (h : ∀ ⦃s : σ⦄ ⦃a : α⦄, I s → C a → ∃ s', (∀ i, (N i).step s a = some s') ∧ I s') :
    ∀ {as : List α} {s : σ}, I s → (∀ a ∈ as, C a) →
      ∃ s', (∀ i, (N i).run s as = some s') ∧ I s' := by
  intro as
  induction as with
  | nil => exact fun hs _ ↦ ⟨_, fun _ ↦ rfl, hs⟩
  | cons a as ih =>
    intro s hs hC
    obtain ⟨t, hstep, ht⟩ := h hs (hC a List.mem_cons_self)
    obtain ⟨s', hrun, hs'⟩ := ih ht fun b hb ↦ hC b (List.mem_cons_of_mem _ hb)
    refine ⟨s', fun i ↦ ?_, hs'⟩
    rw [run_cons_of_step (hstep i), hrun i]

/-- The progress rule for one machine. -/
theorem exists_run {C : α → Prop} {I : σ → Prop}
    (h : ∀ ⦃s : σ⦄ ⦃a : α⦄, I s → C a → ∃ s', M.step s a = some s' ∧ I s') {as : List α} {s : σ}
    (hs : I s) (hC : ∀ a ∈ as, C a) : ∃ s', M.run s as = some s' ∧ I s' := by
  obtain ⟨s', hrun, hs'⟩ := exists_common_run (N := fun _ : Unit ↦ M) (I := I)
    (fun _ _ ht ha ↦ (h ht ha).imp fun _ ⟨hstep, hu⟩ ↦ ⟨fun _ ↦ hstep, hu⟩) hs hC
  exact ⟨s', hrun (), hs'⟩

/-! ## Simulation -/

/-- The actions of the simulated machine that answer a schedule, read off state by state. -/
def answers (M : Machine σ α) (answer : σ → α → List γ) : σ → List α → List γ
  | _, [] => []
  | s, a :: as =>
      answer s a ++ ((M.step s a).elim [] fun s' ↦ answers M answer s' as)

/-- **The simulation rule.** When every step is answered by a run of `N` that restores the relation
`R`, so is every run. -/
theorem simulates_run {N : Machine τ γ} {R : σ → τ → Prop} {answer : σ → α → List γ}
    (h : ∀ ⦃s s' : σ⦄ ⦃t : τ⦄ ⦃a : α⦄, R s t → M.step s a = some s' →
      ∃ t', N.run t (answer s a) = some t' ∧ R s' t') :
    ∀ {as : List α} {s s' : σ} {t : τ}, R s t → M.run s as = some s' →
      ∃ t', N.run t (M.answers answer s as) = some t' ∧ R s' t' := by
  intro as
  induction as with
  | nil =>
    intro s s' t hR hrun
    rw [run_nil, Option.some_inj] at hrun
    exact ⟨t, rfl, hrun ▸ hR⟩
  | cons a as ih =>
    intro s s' t hR hrun
    rw [run_cons, Option.bind_eq_some_iff] at hrun
    obtain ⟨u, hstep, hrest⟩ := hrun
    obtain ⟨v, hv, hRv⟩ := h hR hstep
    obtain ⟨w, hw, hRw⟩ := ih hRv hrest
    refine ⟨w, ?_, hRw⟩
    rw [answers, hstep, Option.elim_some, run_append, hv, Option.bind_some, hw]

/-- A map of the states that keeps every step keeps every run. -/
theorem run_map {N : Machine τ α} {f : σ → τ}
    (h : ∀ ⦃s s' : σ⦄ ⦃a : α⦄, M.step s a = some s' → N.step (f s) a = some (f s')) :
    ∀ {as : List α} {s s' : σ}, M.run s as = some s' → N.run (f s) as = some (f s') := by
  intro as
  induction as with
  | nil =>
    intro s s' hrun
    rw [run_nil, Option.some_inj] at hrun
    rw [hrun, run_nil]
  | cons a as ih =>
    intro s s' hrun
    rw [run_cons, Option.bind_eq_some_iff] at hrun
    obtain ⟨u, hstep, hrest⟩ := hrun
    rw [run_cons_of_step (h hstep), ih hrest]

end Machine

end Transition
