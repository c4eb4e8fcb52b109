import Mathlib.Logic.Basic

/-!
# A mutex and the threads inside it

A mutex is the name of its owner, if it has one. `Guarded` says that the owner is exactly the
thread inside the critical section, where `inside` is read off the threads' program points; that no
two threads are inside at once follows. A step of one thread enters, leaves or stays, and each of
the three has a lemma here. Nothing is assumed about what the other threads do outside.
-/

namespace Mutex

variable {T : Type*} {inside inside' : T → Prop} {owner : Option T} {t u : T}

/-- The owner is the thread inside. -/
def Guarded (inside : T → Prop) (owner : Option T) : Prop := ∀ t, owner = some t ↔ inside t

namespace Guarded

theorem owner_eq (h : Guarded inside owner) (ht : inside t) : owner = some t := (h t).mpr ht

theorem not_inside (h : Guarded inside none) (t : T) : ¬ inside t := fun ht ↦
  absurd ((h t).mpr ht) (by simp)

/-- **Mutual exclusion.** -/
theorem eq (h : Guarded inside owner) (ht : inside t) (hu : inside u) : t = u := by
  rw [← Option.some_inj, ← h.owner_eq ht, ← h.owner_eq hu]

theorem none_of_forall (h : ∀ t, ¬ inside t) : Guarded inside none := fun t ↦
  ⟨fun hc ↦ absurd hc (by simp), fun ht ↦ absurd ht (h t)⟩

theorem congr (h : Guarded inside owner) (hiff : ∀ u, inside' u ↔ inside u) :
    Guarded inside' owner := fun u ↦ (h u).trans (hiff u).symm

/-- A step of one thread that does not cross the border of the section. -/
theorem stay (h : Guarded inside owner) (hself : inside' t ↔ inside t)
    (hframe : ∀ u, u ≠ t → (inside' u ↔ inside u)) : Guarded inside' owner := by
  refine h.congr fun u ↦ ?_
  by_cases hu : u = t
  · rw [hu]
    exact hself
  · exact hframe u hu

theorem acquire (h : Guarded inside none) (hself : inside' t)
    (hframe : ∀ u, u ≠ t → (inside' u ↔ inside u)) : Guarded inside' (some t) := by
  intro u
  rw [Option.some_inj]
  by_cases hu : u = t
  · rw [hu]
    exact iff_of_true rfl hself
  · rw [hframe u hu]
    exact iff_of_false (fun hc ↦ hu hc.symm) (h.not_inside u)

theorem release (h : Guarded inside owner) (ht : inside t) (hself : ¬ inside' t)
    (hframe : ∀ u, u ≠ t → (inside' u ↔ inside u)) : Guarded inside' none := by
  refine none_of_forall fun u ↦ ?_
  by_cases hu : u = t
  · rwa [hu]
  · rw [hframe u hu]
    exact fun hc ↦ hu (h.eq hc ht)

end Guarded

end Mutex
