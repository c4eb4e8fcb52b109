import Mathlib.Data.List.Forall2

/-!
# Delimited fields

A text that is put together from fields: for each a fixed label, a body of any length, and a mark
behind it. Where no body contains its own mark, the bodies can be read back, so that different
bodies give different texts. The marks need not be the same, and a label may contain them.
-/

namespace Delimited

variable {α : Type*}

structure TextField (α : Type*) where
  label : List α
  mark : α

/-- A body ends where its mark stands first. -/
def TextField.Fits (f : TextField α) (body : List α) : Prop := f.mark ∉ body

/-- The text of the given bodies. -/
def render : List (TextField α) → List (List α) → List α
  | f :: fs, b :: bs => f.label ++ b ++ f.mark :: render fs bs
  | _, _ => []

theorem render_ne_nil {f : TextField α} {fs : List (TextField α)} {bs : List (List α)}
    (h : List.Forall₂ TextField.Fits (f :: fs) bs) : render (f :: fs) bs ≠ [] := by
  cases h with
  | cons hb _ => exact List.append_ne_nil_of_right_ne_nil _ (List.cons_ne_nil _ _)

variable [DecidableEq α]

/-- The bodies of a text. -/
def bodies : List (TextField α) → List α → List (List α)
  | [], _ => []
  | f :: fs, text =>
    let rest := text.drop f.label.length
    rest.takeWhile (· ≠ f.mark) :: bodies fs (rest.dropWhile (· ≠ f.mark)).tail

variable {f : TextField α} {fs : List (TextField α)} {b : List α} {bs bs' : List (List α)}

theorem bodies_cons_append (hb : f.Fits b) (text : List α) :
    bodies (f :: fs) (f.label ++ b ++ f.mark :: text) = b :: bodies fs text := by
  have hne : ∀ a ∈ b, decide (a ≠ f.mark) = true := fun a ha ↦
    decide_eq_true fun h ↦ hb (h ▸ ha)
  rw [bodies, List.append_assoc, List.drop_left, List.takeWhile_append_of_pos hne,
    List.dropWhile_append_of_pos hne, List.takeWhile_cons_of_neg (by simp),
    List.dropWhile_cons_of_neg (by simp), List.append_nil, List.tail_cons]

/-- **Round trip.** What was rendered is read back. -/
theorem bodies_render (h : List.Forall₂ TextField.Fits fs bs) : bodies fs (render fs bs) = bs := by
  induction h with
  | nil => rfl
  | cons hb _ ih => rw [render, bodies_cons_append hb, ih]

/-- Different bodies give different texts. -/
theorem render_inj (h : List.Forall₂ TextField.Fits fs bs)
    (h' : List.Forall₂ TextField.Fits fs bs') : render fs bs = render fs bs' ↔ bs = bs' := by
  refine ⟨fun heq ↦ ?_, fun heq ↦ by rw [heq]⟩
  rw [← bodies_render h, heq, bodies_render h']

/-! ## Several texts in a row -/

/-- The text behind the bodies. -/
def behind : List (TextField α) → List α → List α
  | [], text => text
  | f :: fs, text => behind fs ((text.drop f.label.length).dropWhile (· ≠ f.mark)).tail

theorem behind_cons_append (hb : f.Fits b) (text : List α) :
    behind (f :: fs) (f.label ++ b ++ f.mark :: text) = behind fs text := by
  have hne : ∀ a ∈ b, decide (a ≠ f.mark) = true := fun a ha ↦
    decide_eq_true fun h ↦ hb (h ▸ ha)
  rw [behind, List.append_assoc, List.drop_left, List.dropWhile_append_of_pos hne,
    List.dropWhile_cons_of_neg (by simp), List.tail_cons]

theorem bodies_render_append (h : List.Forall₂ TextField.Fits fs bs) (text : List α) :
    bodies fs (render fs bs ++ text) = bs ∧ behind fs (render fs bs ++ text) = text := by
  induction h with
  | nil => exact ⟨rfl, rfl⟩
  | cons hb _ ih =>
    rw [render, List.append_assoc, List.cons_append, bodies_cons_append hb, behind_cons_append hb]
    exact ⟨congrArg _ ih.1, ih.2⟩

/-- **Texts in a row.** Nothing has to stand between them: each ends where its last mark does. -/
theorem render_flatten_inj : ∀ {bss bss' : List (List (List α))},
    (∀ bs ∈ bss, List.Forall₂ TextField.Fits (f :: fs) bs) →
    (∀ bs ∈ bss', List.Forall₂ TextField.Fits (f :: fs) bs) →
    (bss.map (render (f :: fs))).flatten = (bss'.map (render (f :: fs))).flatten → bss = bss' := by
  intro bss
  induction bss with
  | nil =>
    intro bss' _ h' heq
    cases bss' with
    | nil => rfl
    | cons bs bss' =>
      have hnil := List.flatten_eq_nil_iff.mp heq.symm _ List.mem_cons_self
      exact absurd hnil (render_ne_nil (h' bs List.mem_cons_self))
  | cons bs bss ih =>
    intro bss' h h' heq
    cases bss' with
    | nil =>
      have hnil := List.flatten_eq_nil_iff.mp heq _ List.mem_cons_self
      exact absurd hnil (render_ne_nil (h bs List.mem_cons_self))
    | cons bs' bss' =>
      rw [List.map_cons, List.map_cons, List.flatten_cons, List.flatten_cons] at heq
      have hread := bodies_render_append (h bs List.mem_cons_self)
      have hread' := bodies_render_append (h' bs' List.mem_cons_self)
      have hfirst := (hread (bss.map (render (f :: fs))).flatten).1
      have hrest := (hread (bss.map (render (f :: fs))).flatten).2
      rw [heq, (hread' _).1] at hfirst
      rw [heq, (hread' _).2] at hrest
      rw [hfirst, ih (fun b hb ↦ h b (List.mem_cons_of_mem bs hb))
        (fun b hb ↦ h' b (List.mem_cons_of_mem bs' hb)) hrest.symm]

/-! ## Decimals as bodies -/

theorem notMem_toDigits {c : Char} (hc : c.isDigit = false) (n : ℕ) : c ∉ Nat.toDigits 10 n := by
  intro h
  rw [Nat.isDigit_of_mem_toDigits (by omega) (by omega) h] at hc
  exact Bool.noConfusion hc

theorem toDigits_inj {m n : ℕ} : Nat.toDigits 10 m = Nat.toDigits 10 n ↔ m = n := by
  refine ⟨fun h ↦ ?_, fun h ↦ by rw [h]⟩
  rw [← Nat.ofDigitChars_ten_toDigits (n := m), h, Nat.ofDigitChars_ten_toDigits]

end Delimited
