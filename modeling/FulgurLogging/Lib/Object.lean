import FulgurLogging.Lib.Machine

/-!
# Objects and what their callers see

An object answers a call with a reply, and is then in another state; a call that does not return
ends the replies. Two states are indistinguishable if every sequence of calls has the same replies
in both, which a bisimulation shows.

For two states that are not indistinguishable, `replies_eq_iff` says which sequences tell them
apart. Some calls reveal the difference and some cover it up for good, so it is a matter of which
comes first.
-/

namespace Transition

/-- A partial function that answers calls; `none` is a call that does not return. -/
structure Object (σ α ρ : Type*) where
  call : σ → α → Option (ρ × σ)

namespace Object

variable {σ α ρ : Type*} (O : Object σ α ρ)

/-- The replies to a sequence of calls, up to the first that does not return. -/
def replies : σ → List α → List ρ
  | _, [] => []
  | s, a :: as => (O.call s a).elim [] fun r ↦ r.1 :: replies r.2 as

/-- The object without its replies. -/
def machine : Machine σ α where
  step s a := (O.call s a).map Prod.snd

/-- In both states the call gives the same reply and leads to states that `R` relates, or it does
not return. -/
def Agrees (R : σ → σ → Prop) (s t : σ) (a : α) : Prop :=
  (O.call s a = none ∧ O.call t a = none) ∨
    ∃ r s' t', O.call s a = some (r, s') ∧ O.call t a = some (r, t') ∧ R s' t'

/-- The call returns in both states, with different replies. -/
def Differs (s t : σ) (a : α) : Prop :=
  ∃ x y, O.call s a = some x ∧ O.call t a = some y ∧ x.1 ≠ y.1

/-- A revealing call that is reached comes after a covering one. -/
def CoveredUp (covers reveals : α → Prop) (s : σ) (as : List α) : Prop :=
  ∀ pre a post, as = pre ++ a :: post → reveals a → (∃ s', O.machine.run s pre = some s') →
    ∃ b ∈ pre, covers b

variable {O}

section Replies

variable {s : σ} {a : α} {as : List α}

theorem replies_cons_of_call {x : ρ × σ} (h : O.call s a = some x) :
    O.replies s (a :: as) = x.1 :: O.replies x.2 as := by
  rw [replies, h, Option.elim_some]

theorem replies_cons_of_none (h : O.call s a = none) : O.replies s (a :: as) = [] := by
  rw [replies, h, Option.elim_none]

/-- Calls that all return, followed by others. -/
theorem replies_append {s' : σ} (h : O.machine.run s as = some s') (bs : List α) :
    O.replies s (as ++ bs) = O.replies s as ++ O.replies s' bs := by
  induction as generalizing s with
  | nil =>
    rw [Machine.run_nil, Option.some_inj] at h
    rw [List.nil_append, h]
    rfl
  | cons a as ih =>
    rw [Machine.run_cons, Option.bind_eq_some_iff] at h
    obtain ⟨t, hstep, hrest⟩ := h
    obtain ⟨x, hcall, rfl⟩ := Option.map_eq_some_iff.mp hstep
    rw [List.cons_append, replies_cons_of_call hcall, replies_cons_of_call hcall, ih hrest,
      List.cons_append]

theorem machine_step (s : σ) (a : α) : O.machine.step s a = (O.call s a).map Prod.snd := rfl

end Replies

/-! ## Calls that agree -/

section Agrees

variable {E : σ → σ → Prop} {s t : σ} {a : α} {as : List α}

theorem Agrees.replies_cons (h : O.Agrees E s t a)
    (hE : ∀ ⦃s t⦄, E s t → O.replies s as = O.replies t as) :
    O.replies s (a :: as) = O.replies t (a :: as) := by
  rcases h with ⟨hs, ht⟩ | ⟨r, s', t', hs, ht, hnext⟩
  · rw [replies_cons_of_none hs, replies_cons_of_none ht]
  · rw [replies_cons_of_call hs, replies_cons_of_call ht, hE hnext]

/-- **The bisimulation rule.** -/
theorem replies_eq (h : ∀ ⦃s t⦄, E s t → ∀ a, O.Agrees E s t a) (hE : E s t) (as : List α) :
    O.replies s as = O.replies t as := by
  induction as generalizing s t with
  | nil => rfl
  | cons a as ih => exact (h hE a).replies_cons fun _ _ ↦ ih

end Agrees

/-! ## Calls that reveal a difference -/

section CoveredUp

variable {covers reveals : α → Prop} {s t : σ} {a : α} {as : List α}

theorem Differs.replies_cons_ne (h : O.Differs s t a) (as : List α) :
    O.replies s (a :: as) ≠ O.replies t (a :: as) := by
  obtain ⟨x, y, hs, ht, hne⟩ := h
  rw [replies_cons_of_call hs, replies_cons_of_call ht]
  exact fun heq ↦ hne (List.cons.inj heq).1

theorem not_coveredUp_cons (h : reveals a) : ¬O.CoveredUp covers reveals s (a :: as) := by
  intro hcovered
  obtain ⟨b, hb, -⟩ := hcovered [] a as rfl h ⟨s, rfl⟩
  exact absurd hb List.not_mem_nil

/-- A call that does not reveal anything, followed by what the rest has to be. -/
theorem coveredUp_cons_iff (h : ¬reveals a) : O.CoveredUp covers reveals s (a :: as) ↔
    covers a ∨ ∀ s', O.machine.step s a = some s' → O.CoveredUp covers reveals s' as := by
  constructor
  · intro hcovered
    by_cases ha : covers a
    · exact .inl ha
    · refine .inr fun s' hstep pre b post has hb hrun ↦ ?_
      rw [← Machine.run_cons_of_step hstep] at hrun
      obtain ⟨c, hc, hcovers⟩ := hcovered (a :: pre) b post (congrArg (a :: ·) has) hb hrun
      rcases List.mem_cons.mp hc with rfl | hc
      · exact absurd hcovers ha
      · exact ⟨c, hc, hcovers⟩
  · intro hrest pre b post has hb hrun
    cases pre with
    | nil =>
      obtain ⟨rfl, -⟩ := List.cons.inj has
      exact absurd hb h
    | cons c pre =>
      obtain ⟨rfl, htail⟩ := List.cons.inj has
      rcases hrest with ha | hrest
      · exact ⟨a, List.mem_cons_self, ha⟩
      · obtain ⟨u, hrun⟩ := hrun
        rw [Machine.run_cons, Option.bind_eq_some_iff] at hrun
        obtain ⟨s', hstep, hrun⟩ := hrun
        obtain ⟨c, hc, hcovers⟩ := hrest s' hstep pre b post htail hb ⟨u, hrun⟩
        exact ⟨c, List.mem_cons_of_mem a hc, hcovers⟩

/-- **Which calls tell two states apart.** `E` is a bisimulation; states that `R` relates differ in
what the revealing calls reply, until a covering call makes them bisimilar. -/
theorem replies_eq_iff {R E : σ → σ → Prop}
    (hE : ∀ ⦃s t⦄, E s t → ∀ a, O.Agrees E s t a)
    (hreveals : ∀ ⦃s t a⦄, R s t → reveals a → O.Differs s t a)
    (hcovers : ∀ ⦃s t a⦄, R s t → covers a → O.Agrees E s t a)
    (hkeeps : ∀ ⦃s t a⦄, R s t → ¬reveals a → ¬covers a → O.Agrees R s t a)
    (hR : R s t) (as : List α) :
    O.replies s as = O.replies t as ↔ O.CoveredUp covers reveals t as := by
  induction as generalizing s t with
  | nil =>
    refine iff_of_true rfl fun pre a post has ↦ ?_
    exact absurd has.symm (List.append_ne_nil_of_right_ne_nil pre (List.cons_ne_nil a post))
  | cons a as ih =>
    by_cases ha : reveals a
    · -- the replies differ here, whatever follows
      exact iff_of_false ((hreveals hR ha).replies_cons_ne as) (not_coveredUp_cons ha)
    · rw [coveredUp_cons_iff ha]
      by_cases hcover : covers a
      · -- from here on the states are bisimilar
        refine iff_of_true ?_ (.inl hcover)
        exact (hcovers hR hcover).replies_cons fun _ _ h ↦ replies_eq hE h as
      · rw [or_iff_right hcover, machine_step]
        rcases hkeeps hR ha hcover with ⟨hs, ht⟩ | ⟨r, s', t', hs, ht, hnext⟩
        · rw [replies_cons_of_none hs, replies_cons_of_none ht, ht]
          exact iff_of_true rfl nofun
        · rw [replies_cons_of_call hs, replies_cons_of_call ht, ht, List.cons_inj_right, ih hnext]
          simp only [Option.map_some, Option.some.injEq, forall_eq']

end CoveredUp

end Object

end Transition
