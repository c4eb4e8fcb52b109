import Mathlib.Data.Finset.Card
import Mathlib.Data.Finset.Insert

/-!
# Counting threads

How many threads are at a program point of a kind. The threads are of any type, so that the number
need not exist; but it does where all but finitely many threads are at rest, and every step of one
thread changes it by at most one.
-/

namespace Census

variable {T P : Type*}

/-- Exactly `n` threads are at a point that satisfies `q`. -/
def Count (q : P → Prop) (point : T → P) (n : ℕ) : Prop :=
  ∃ F : Finset T, F.card = n ∧ ∀ t, t ∈ F ↔ q (point t)

variable {q : P → Prop} {point : T → P} {n : ℕ} {t : T} {p : P}

theorem Count.zero (h : ∀ t, ¬q (point t)) : Count q point 0 :=
  ⟨∅, Finset.card_empty, fun t ↦ iff_of_false (Finset.notMem_empty t) (h t)⟩

/-- The number is the only one for its points. -/
theorem Count.eq_zero (h : Count q point n) (hnone : ∀ t, ¬q (point t)) : n = 0 := by
  obtain ⟨F, rfl, hF⟩ := h
  exact Finset.card_eq_zero.mpr (Finset.eq_empty_of_forall_notMem fun t ht ↦ hnone t ((hF t).mp ht))

theorem Count.pos (h : Count q point n) (ht : q (point t)) : 0 < n := by
  obtain ⟨F, rfl, hF⟩ := h
  exact Finset.card_pos.mpr ⟨t, (hF t).mpr ht⟩

variable [DecidableEq T]

/-- A thread comes to such a point. -/
theorem Count.enter (h : Count q point n) (hout : ¬q (point t)) (hin : q p) :
    Count q (Function.update point t p) (n + 1) := by
  obtain ⟨F, rfl, hF⟩ := h
  refine ⟨insert t F, Finset.card_insert_of_notMem fun ht ↦ hout ((hF t).mp ht), fun u ↦ ?_⟩
  rw [Finset.mem_insert]
  by_cases hu : u = t
  · rw [hu, Function.update_self]
    exact iff_of_true (.inl rfl) hin
  · rw [Function.update_of_ne hu, or_iff_right hu, hF]

/-- A thread goes on from one. -/
theorem Count.leave (h : Count q point n) (hin : q (point t)) (hout : ¬q p) :
    ∃ m, n = m + 1 ∧ Count q (Function.update point t p) m := by
  obtain ⟨F, rfl, hF⟩ := h
  have ht : t ∈ F := (hF t).mpr hin
  refine ⟨(F.erase t).card, (Finset.card_erase_add_one ht).symm, F.erase t, rfl, fun u ↦ ?_⟩
  rw [Finset.mem_erase]
  by_cases hu : u = t
  · rw [hu, Function.update_self]
    exact iff_of_false (fun h ↦ h.1 rfl) hout
  · rw [Function.update_of_ne hu, and_iff_right hu, hF]

/-- A step between two points of the same kind. -/
theorem Count.keep (h : Count q point n) (hp : q (point t) ↔ q p) :
    Count q (Function.update point t p) n := by
  obtain ⟨F, hcard, hF⟩ := h
  refine ⟨F, hcard, fun u ↦ ?_⟩
  by_cases hu : u = t
  · rw [hu, Function.update_self, hF, hp]
  · rw [Function.update_of_ne hu, hF]

end Census
