import FulgurLogging.Lib.Machine
import FulgurLogging.Lib.Placement
import Mathlib.Data.Fintype.EquivFin
import Mathlib.Data.Nat.ModEq
import Mathlib.Logic.Function.Basic

/-!
# Bounded queues and circular windows

The specification side is a bounded FIFO queue, whose bound is a field so that an overfull queue
cannot be built. The implementation side is a ring of `m` slots addressed by an unbounded position
modulo `m`. `Holds slots lo xs` ties the two: the elements `xs`, and nothing else, occupy the
consecutive positions starting at `lo`.

The relation is stated over all `m` positions at once, reading `xs[k]?` at position `lo + k`. Past
the end of `xs` this is `none`, so occupancy and vacancy are the same equation, and no case split
on whether the window wraps around the end of the array is ever made.
-/

namespace Ring

variable {m : ℕ} {β : Type*}

/-! ## The specification -/

/-- A FIFO queue of at most `cap` elements, the oldest first. -/
structure BoundedQueue (cap : ℕ) (β : Type*) where
  /-- The elements, the oldest first. -/
  items : List β
  /-- The bound. -/
  length_le : items.length ≤ cap

namespace BoundedQueue

/-- The queue with nothing in it. -/
def empty (cap : ℕ) (β : Type*) : BoundedQueue cap β := ⟨[], Nat.zero_le cap⟩

/-- Append an element, if there is room. -/
def enqueue (q : BoundedQueue m β) (b : β) : Option (BoundedQueue m β) :=
  if h : q.items.length < m then some ⟨q.items ++ [b], by rw [List.length_append]; exact h⟩
  else none

/-- Take the oldest element, if there is one. -/
def dequeue (q : BoundedQueue m β) : Option (β × BoundedQueue m β) :=
  match q with
  | ⟨[], _⟩ => none
  | ⟨b :: bs, h⟩ => some (b, ⟨bs, (Nat.le_succ _).trans h⟩)

/-- What a client of a queue does. -/
inductive Action (β : Type*)
  | enqueue (b : β)
  | dequeue

/-- The queue as a machine, which logs what it hands out. -/
def machine (cap : ℕ) (β : Type*) :
    Transition.Machine (BoundedQueue cap β × List β) (Action β) where
  step
    | (q, out), .enqueue b => (q.enqueue b).map fun q' ↦ (q', out)
    | (q, out), .dequeue => q.dequeue.map fun r ↦ (r.2, out ++ [r.1])

theorem enqueue_of_lt {q : BoundedQueue m β} (h : q.items.length < m) (b : β) :
    q.enqueue b = some ⟨q.items ++ [b], by rw [List.length_append]; exact h⟩ := dif_pos h

theorem dequeue_cons {b : β} {bs : List β} (h : (b :: bs).length ≤ m) :
    dequeue (⟨b :: bs, h⟩ : BoundedQueue m β) = some (b, ⟨bs, (Nat.le_succ _).trans h⟩) := rfl

end BoundedQueue

/-! ## Positions -/

section Positions

variable [NeZero m]

/-- The slot an unbounded position falls on. -/
def slot (m : ℕ) [NeZero m] (k : ℕ) : Fin m := ⟨k % m, Nat.mod_lt k (Nat.pos_of_neZero m)⟩

@[simp] theorem val_slot (k : ℕ) : (slot m k).val = k % m := rfl

theorem slot_eq_iff {j k : ℕ} : slot m j = slot m k ↔ j ≡ k [MOD m] := by
  rw [Fin.ext_iff]
  rfl

/-- Within one lap, positions are told apart by their slots. -/
theorem slot_add_inj {lo j k : ℕ} (hj : j < m) (hk : k < m) :
    slot m (lo + j) = slot m (lo + k) ↔ j = k := by
  constructor
  · intro h
    have hmod : j ≡ k [MOD m] := Nat.ModEq.add_left_cancel' lo (slot_eq_iff.mp h)
    rwa [Nat.ModEq, Nat.mod_eq_of_lt hj, Nat.mod_eq_of_lt hk] at hmod
  · rintro rfl
    rfl

/-- One lap visits every slot. -/
theorem exists_slot_add_eq (lo : ℕ) (i : Fin m) : ∃ k < m, slot m (lo + k) = i := by
  have hinj : Function.Injective fun k : Fin m ↦ slot m (lo + k.val) := fun j k h ↦
    Fin.ext ((slot_add_inj j.isLt k.isLt).mp h)
  obtain ⟨k, hk⟩ := Finite.surjective_of_injective hinj i
  exact ⟨k.val, k.isLt, hk⟩

/-- A full lap returns to the same slot. -/
theorem slot_add_self (lo : ℕ) : slot m (lo + m) = slot m lo := by
  rw [slot_eq_iff, Nat.ModEq, Nat.add_mod_right]

end Positions

/-! ## Windows -/

/-- The slots hold exactly `xs`, at the positions from `lo` on. -/
structure Holds [NeZero m] (slots : Fin m → Option β) (lo : ℕ) (xs : List β) : Prop where
  /-- The window is at most one lap long. -/
  length_le : xs.length ≤ m
  /-- What each position of the lap holds. -/
  slot_add : ∀ k < m, slots (slot m (lo + k)) = xs[k]?

namespace Holds

variable [NeZero m] {slots : Fin m → Option β} {lo : ℕ} {xs : List β}

theorem nil (h : ∀ i, slots i = none) (lo : ℕ) : Holds slots lo [] :=
  ⟨Nat.zero_le m, fun k _ ↦ by rw [h, List.getElem?_nil]⟩

theorem eq_none (h : Holds slots lo []) (i : Fin m) : slots i = none := by
  obtain ⟨k, hk, rfl⟩ := exists_slot_add_eq lo i
  rw [h.slot_add k hk, List.getElem?_nil]

/-- The position after the window is vacant, unless the window is a full lap. -/
theorem vacant (h : Holds slots lo xs) (hlt : xs.length < m) :
    slots (slot m (lo + xs.length)) = none := by
  rw [h.slot_add _ hlt, List.getElem?_eq_none (Nat.le_refl _)]

/-- The first position holds the oldest element, or nothing when there is none. -/
theorem front (h : Holds slots lo xs) : slots (slot m lo) = xs.head? := by
  have hzero := h.slot_add 0 (Nat.pos_of_neZero m)
  rwa [Nat.add_zero, ← List.head?_eq_getElem?] at hzero

/-- **Occupancy.** The slots in use are exactly the positions of the window. -/
theorem eq_some_iff (h : Holds slots lo xs) {i : Fin m} {b : β} :
    slots i = some b ↔ ∃ k, xs[k]? = some b ∧ slot m (lo + k) = i := by
  constructor
  · intro hi
    obtain ⟨k, hk, rfl⟩ := exists_slot_add_eq lo i
    exact ⟨k, by rw [← h.slot_add k hk, hi], rfl⟩
  · rintro ⟨k, hk, rfl⟩
    have hlt : k < xs.length := (List.getElem?_eq_some_iff.mp hk).1
    rw [h.slot_add k (hlt.trans_le h.length_le), hk]

theorem filterMap_range_getElem? (xs : List β) (n : ℕ) :
    (List.range n).filterMap (fun k ↦ xs[k]?) = xs.take n := by
  induction n with
  | zero => rfl
  | succ n ih =>
    rw [List.range_succ, List.filterMap_append, ih, List.take_add_one]
    cases hn : xs[n]? with
    | none =>
      rw [List.filterMap_cons_none hn]
      rfl
    | some b =>
      rw [List.filterMap_cons_some hn]
      rfl

/-- What is in the slots, in whatever order they are visited, is the window. -/
theorem filterMap_perm (h : Holds slots lo xs) {visited : List (Fin m)}
    (hvisited : visited.Perm (List.finRange m)) : (visited.filterMap slots).Perm xs := by
  have hlap : ((List.range m).map fun k ↦ slot m (lo + k)).Perm (List.finRange m) := by
    refine (List.perm_ext_iff_of_nodup ?_ (List.nodup_finRange m)).mpr fun i ↦ ?_
    · refine List.Nodup.map_on (fun j hj k hk ↦ ?_) List.nodup_range
      exact (slot_add_inj (List.mem_range.mp hj) (List.mem_range.mp hk)).mp
    · obtain ⟨k, hk, rfl⟩ := exists_slot_add_eq lo i
      exact iff_of_true (List.mem_map_of_mem (List.mem_range.mpr hk)) (List.mem_finRange _)
  have heq : ((List.range m).map fun k ↦ slot m (lo + k)).filterMap slots = xs := by
    have hslots : ∀ k ∈ List.range m, slots (slot m (lo + k)) = xs[k]? :=
      fun k hk ↦ h.slot_add k (List.mem_range.mp hk)
    rw [List.filterMap_map]
    exact (List.filterMap_congr hslots).trans
      ((filterMap_range_getElem? xs m).trans (List.take_of_length_le h.length_le))
  exact ((hvisited.trans hlap.symm).filterMap slots).trans (heq ▸ List.Perm.refl _)

/-- Distinct elements are each in one slot. -/
theorem placed (h : Holds slots lo xs) (hnd : xs.Nodup) :
    Ownership.Placed slots {b | b ∈ xs} := by
  refine ⟨?_, ?_, ?_⟩
  · intro b hb
    obtain ⟨k, hk⟩ := List.mem_iff_getElem?.mp hb
    exact ⟨slot m (lo + k), h.eq_some_iff.mpr ⟨k, hk, rfl⟩⟩
  · intro i j b hi hj
    obtain ⟨k, hk, rfl⟩ := h.eq_some_iff.mp hi
    obtain ⟨l, hl, rfl⟩ := h.eq_some_iff.mp hj
    obtain ⟨hklt, rfl⟩ := List.getElem?_eq_some_iff.mp hk
    obtain ⟨hllt, heq⟩ := List.getElem?_eq_some_iff.mp hl
    rw [(hnd.getElem_inj_iff).mp heq]
  · intro i b hi
    obtain ⟨k, hk, -⟩ := h.eq_some_iff.mp hi
    exact List.mem_of_getElem? hk

/-- Filling the position after the window appends to it. -/
theorem push (h : Holds slots lo xs) (hlt : xs.length < m) (b : β) :
    Holds (Function.update slots (slot m (lo + xs.length)) (some b)) lo (xs ++ [b]) := by
  refine ⟨by simp; omega, fun k hk ↦ ?_⟩
  by_cases hkn : k = xs.length
  · subst hkn
    rw [Function.update_self, List.getElem?_concat_length]
  · rw [Function.update_of_ne (fun hc ↦ hkn ((slot_add_inj hk hlt).mp hc)), h.slot_add k hk]
    rcases Nat.lt_or_gt_of_ne hkn with hlt' | hgt
    · rw [List.getElem?_append_left hlt']
    · rw [List.getElem?_eq_none (by omega), List.getElem?_eq_none (by simp; omega)]

/-- Clearing the first position drops the oldest element. -/
theorem pop {b : β} (h : Holds slots lo (b :: xs)) :
    Holds (Function.update slots (slot m lo) none) (lo + 1) xs := by
  have hlen : xs.length + 1 ≤ m := h.length_le
  refine ⟨by omega, fun k hk ↦ ?_⟩
  rw [Nat.add_assoc, Nat.add_comm 1 k]
  by_cases hkm : k + 1 = m
  · rw [hkm, slot_add_self, Function.update_self, List.getElem?_eq_none (by omega)]
  · have hne : slot m (lo + (k + 1)) ≠ slot m lo := fun hc ↦ by
      have hzero : k + 1 = 0 := (slot_add_inj (by omega) (Nat.pos_of_neZero m)).mp hc
      omega
    rw [Function.update_of_ne hne, h.slot_add (k + 1) (by omega), List.getElem?_cons_succ]

end Holds

end Ring
