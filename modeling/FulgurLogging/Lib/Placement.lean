import Mathlib.Data.Set.Basic
import Mathlib.Logic.ExistsUnique

/-!
# Tokens in exactly one place

A system hands indivisible tokens around between places, each of which holds one token or none. The
conservation law is that every token is in exactly one place. `Moves` describes a step that carries
the content of one place to a vacant one; every such step keeps the law, and a step that overwrites
a token is one that is not of this form.
-/

namespace Ownership

variable {π β : Type*}

/-- Every token is in exactly one place, and the places hold nothing else. -/
structure Placed (content : π → Option β) (tokens : Set β) : Prop where
  exists_place : ∀ b ∈ tokens, ∃ p, content p = some b
  place_unique : ∀ {p q b}, content p = some b → content q = some b → p = q
  mem_tokens : ∀ {p b}, content p = some b → b ∈ tokens

theorem Placed.existsUnique {content : π → Option β} {tokens : Set β} (h : Placed content tokens)
    {b : β} (hb : b ∈ tokens) : ∃! p, content p = some b := by
  obtain ⟨p, hp⟩ := h.exists_place b hb
  exact ⟨p, hp, fun q hq ↦ h.place_unique hq hp⟩

/-- Places that start empty may be added. -/
theorem Placed.of_comp {ρ : Type*} {start : ρ → Option β} {content : π → Option β}
    {tokens : Set β} {f : ρ → π} (h : Placed start tokens) (hf : ∀ r, content (f r) = start r)
    (hout : ∀ {p b}, content p = some b → ∃ r, f r = p) : Placed content tokens := by
  refine ⟨?_, ?_, ?_⟩
  · intro b hb
    obtain ⟨r, hr⟩ := h.exists_place b hb
    exact ⟨f r, by rw [hf, hr]⟩
  · intro p q b hp hq
    obtain ⟨r, rfl⟩ := hout hp
    obtain ⟨t, rfl⟩ := hout hq
    rw [hf] at hp hq
    rw [h.place_unique hp hq]
  · intro p b hp
    obtain ⟨r, rfl⟩ := hout hp
    rw [hf] at hp
    exact h.mem_tokens hp

/-- The content of `p` went to the vacant `q`, and no other place changed. -/
structure Moves (content content' : π → Option β) (p q : π) : Prop where
  vacant : content q = none
  target : content' q = content p
  source : content' p = none
  frame : ∀ r, r ≠ p → r ≠ q → content' r = content r

/-- **Conservation.** Moving a token to a vacant place keeps every token in exactly one place. -/
theorem Placed.moves {content content' : π → Option β} {tokens : Set β} {p q : π}
    (h : Placed content tokens) (hm : Moves content content' p q) : Placed content' tokens := by
  classical
  -- where the content of a place was before the move
  have hback : ∀ {r b}, content' r = some b → content (if r = q then p else r) = some b := by
    intro r b hr
    by_cases hrq : r = q
    · rw [if_pos hrq, ← hm.target, ← hrq, hr]
    · have hrp : r ≠ p := by
        rintro rfl
        rw [hm.source] at hr
        exact absurd hr (by simp)
      rw [if_neg hrq, ← hm.frame r hrp hrq, hr]
  refine ⟨?_, ?_, fun hr ↦ h.mem_tokens (hback hr)⟩
  · intro b hb
    obtain ⟨r, hr⟩ := h.exists_place b hb
    by_cases hrp : r = p
    · exact ⟨q, by rw [hm.target, ← hrp, hr]⟩
    · have hrq : r ≠ q := by
        rintro rfl
        rw [hm.vacant] at hr
        exact absurd hr (by simp)
      exact ⟨r, by rw [hm.frame r hrp hrq, hr]⟩
  · intro r t b hr ht
    have hne : ∀ {u}, content' u = some b → u ≠ p := by
      rintro u hu rfl
      rw [hm.source] at hu
      exact absurd hu (by simp)
    have heq := h.place_unique (hback hr) (hback ht)
    split_ifs at heq with hrq htq htq
    · rw [hrq, htq]
    · exact absurd heq.symm (hne ht)
    · exact absurd heq (hne hr)
    · exact heq

end Ownership
