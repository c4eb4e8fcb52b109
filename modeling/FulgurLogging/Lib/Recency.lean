import FulgurLogging.Lib.Object
import Mathlib.Data.Finset.Card
import Mathlib.Data.List.AList

/-!
# Recency lists

A bounded cache that gives up the least recently used entry, in the abstract: the entries are a
list without duplicate keys, the most recent one first, and what does not fit is cut off at the
end. Inserting an entry makes it the most recent one, and so does finding it.

## Main results

* `Extends.call`: a larger cache that is used in the same way holds all that a smaller one holds,
  in the same order. It may hold more, but never by more than it is larger.
* `Kept.call`: how long an entry is kept is a matter of how many other keys have been used since.
-/

namespace Recency

open List Transition

variable {κ ν : Type*}

/-! ## Truncated association lists -/

/-- The first `n` entries. -/
def truncate (n : ℕ) (s : AList fun _ : κ ↦ ν) : AList fun _ : κ ↦ ν :=
  ⟨s.entries.take n, s.nodupKeys.sublist (take_sublist n s.entries)⟩

theorem entries_truncate (n : ℕ) (s : AList fun _ : κ ↦ ν) :
    (truncate n s).entries = s.entries.take n := rfl

theorem keys_truncate (n : ℕ) (s : AList fun _ : κ ↦ ν) :
    (truncate n s).keys = s.keys.take n := map_take

theorem truncate_of_le {n : ℕ} {s : AList fun _ : κ ↦ ν} (h : s.entries.length ≤ n) :
    truncate n s = s := AList.ext (take_of_length_le h)

theorem truncate_truncate {m n : ℕ} (h : m ≤ n) (s : AList fun _ : κ ↦ ν) :
    truncate m (truncate n s) = truncate m s := by
  refine AList.ext ?_
  rw [entries_truncate, entries_truncate, take_take, Nat.min_eq_left h, entries_truncate]

theorem length_entries (s : AList fun _ : κ ↦ ν) : s.entries.length = s.keys.length :=
  (length_map _).symm

theorem length_kerase [DecidableEq κ] (key : κ) (s : AList fun _ : κ ↦ ν) :
    (s.entries.kerase key).length = (s.keys.erase key).length := by
  rw [AList.keys, ← keys_kerase]
  exact (length_map _).symm

/-- Moving an entry to the front. -/
theorem length_insert_of_mem [DecidableEq κ] {key : κ} {s : AList fun _ : κ ↦ ν}
    (h : key ∈ s.keys) (value : ν) : (s.insert key value).entries.length = s.entries.length := by
  rw [length_entries, AList.keys_insert, length_cons, length_erase_of_mem h, ← length_entries]
  have := length_pos_of_mem h
  rw [← length_entries] at this
  omega

/-- The last entry goes. -/
theorem erase_getLast [DecidableEq κ] {s : AList fun _ : κ ↦ ν} {k : κ}
    (h : s.keys.getLast? = some k) : s.erase k = truncate (s.entries.length - 1) s := by
  have hnodup := s.nodupKeys
  rw [AList.keys, List.keys, getLast?_map, Option.map_eq_some_iff] at h
  obtain ⟨e, he, rfl⟩ := h
  obtain ⟨init, hentries⟩ := getLast?_eq_some_iff.mp he
  rw [hentries, NodupKeys, keys_append, nodup_append] at hnodup
  have hnot : e.1 ∉ init.keys := fun hmem ↦ hnodup.2.2 e.1 hmem e.1 mem_cons_self rfl
  refine AList.ext ?_
  change s.entries.kerase e.1 = s.entries.take _
  rw [hentries, kerase_append_right hnot, kerase_cons_eq rfl, append_nil, length_append,
    length_singleton, Nat.add_sub_cancel, take_left]

/-- A sublist that has lost no more than the difference of the two bounds. -/
theorem take_sublist_take {α : Type*} {xs ys : List α} (h : xs <+ ys) :
    ∀ {m n : ℕ}, ys.length + m ≤ xs.length + n → xs.take m <+ ys.take n := by
  induction h with
  | slnil => exact fun _ ↦ by simp
  | @cons xs ys a hsub ih =>
    intro m n hlen
    have hle := hsub.length_le
    rw [length_cons] at hlen
    obtain ⟨n, rfl⟩ : ∃ i, n = i + 1 := ⟨n - 1, by omega⟩
    rw [take_succ_cons]
    exact (ih (by omega)).cons a
  | @cons_cons xs ys a hsub ih =>
    intro m n hlen
    have hle := hsub.length_le
    rw [length_cons, length_cons] at hlen
    cases m with
    | zero => exact nil_sublist _
    | succ m =>
      obtain ⟨n, rfl⟩ : ∃ i, n = i + 1 := ⟨n - 1, by omega⟩
      rw [take_succ_cons, take_succ_cons]
      exact (ih (by omega)).cons_cons a

/-! ## The cache -/

/-- At most `capacity` entries, the most recent one first. -/
structure Lru (κ ν : Type*) where
  capacity : ℕ
  entries : AList fun _ : κ ↦ ν
  length_le : entries.entries.length ≤ capacity

inductive Call (κ ν : Type*)
  | find (key : κ)
  | insert (key : κ) (value : ν)
  | delete (key : κ)
  /-- With a new bound. -/
  | clear (capacity : ℕ)
  | size
  | empty

inductive Reply (κ ν : Type*)
  /-- The key that is pointed to, if any, with the value that is found there. -/
  | iterator (it : Option (κ × Option ν))
  | size (n : ℕ)
  | empty (b : Bool)
  | done
deriving DecidableEq

namespace Lru

def new (κ ν : Type*) (capacity : ℕ) : Lru κ ν := ⟨capacity, ∅, Nat.zero_le _⟩

variable [DecidableEq κ] (c : Lru κ ν)

/-- Makes an entry the most recent one. -/
def use (key : κ) (value : ν) : Lru κ ν where
  capacity := c.capacity
  entries := truncate c.capacity (c.entries.insert key value)
  length_le := length_take_le _ _

def delete (key : κ) : Lru κ ν where
  capacity := c.capacity
  entries := c.entries.erase key
  length_le := (kerase_sublist key c.entries.entries).length_le.trans c.length_le

/-- An inserted entry may be the one that does not fit. -/
def call : Call κ ν → Reply κ ν × Lru κ ν
  | .find key =>
    match c.entries.lookup key with
    | some value => (.iterator (some (key, some value)), c.use key value)
    | none => (.iterator none, c)
  | .insert key value =>
    (.iterator (some (key, (c.use key value).entries.lookup key)), c.use key value)
  | .delete key => (.done, c.delete key)
  | .clear capacity => (.done, new κ ν capacity)
  | .size => (.size c.entries.entries.length, c)
  | .empty => (.empty c.entries.entries.isEmpty, c)

def object (κ ν : Type*) [DecidableEq κ] : Object (Lru κ ν) (Call κ ν) (Reply κ ν) :=
  ⟨fun c a ↦ some (c.call a)⟩

def after : Lru κ ν → List (Call κ ν) → Lru κ ν := foldl fun c a ↦ (c.call a).2

variable {c}

/-- Nothing is cut off when there is an entry to be replaced. -/
theorem entries_use_of_mem {key : κ} (h : key ∈ c.entries) (value : ν) :
    (c.use key value).entries = c.entries.insert key value :=
  truncate_of_le ((length_insert_of_mem (AList.mem_keys.mp h) value).trans_le c.length_le)

theorem call_find_of_some {key : κ} {value : ν} (h : c.entries.lookup key = some value) :
    c.call (.find key) = (.iterator (some (key, some value)), c.use key value) := by
  rw [call, h]

theorem call_find_of_none {key : κ} (h : c.entries.lookup key = none) :
    c.call (.find key) = (.iterator none, c) := by
  rw [call, h]

end Lru

/-! ## Caches of two sizes -/

section Extends

variable [DecidableEq κ] {c d : Lru κ ν} {key : κ} {value : ν}

/-- `d` holds all that `c` holds, in the same order. -/
structure Extends (c d : Lru κ ν) : Prop where
  sublist : c.entries.entries <+ d.entries.entries
  /-- What `d` holds besides is at most what it is larger by. -/
  length_add_le : d.entries.entries.length + c.capacity ≤ c.entries.entries.length + d.capacity

namespace Extends

theorem lookup (h : Extends c d) (hc : c.entries.lookup key = some value) :
    d.entries.lookup key = some value :=
  sublist_dlookup d.entries.nodupKeys h.sublist hc

omit [DecidableEq κ] in
theorem new {m n : ℕ} (h : m ≤ n) : Extends (.new κ ν m) (.new κ ν n) :=
  ⟨Sublist.refl _, Nat.add_le_add_left h _⟩

/-- What one key less does to the lengths. -/
theorem length_kerase_add_le (h : Extends c d) (key : κ) :
    (d.entries.entries.kerase key).length + c.capacity ≤
      (c.entries.entries.kerase key).length + d.capacity := by
  have hle := h.length_add_le
  have hsub : c.entries.keys <+ d.entries.keys := h.sublist.map Sigma.fst
  rw [length_entries, length_entries] at hle
  rw [length_kerase, length_kerase, length_erase, length_erase]
  by_cases hc : key ∈ c.entries.keys
  · have hpos := length_pos_of_mem hc
    have hpos' := length_pos_of_mem (hsub.subset hc)
    rw [if_pos hc, if_pos (hsub.subset hc)]
    omega
  · rw [if_neg hc]
    split <;> omega

theorem use (h : Extends c d) (key : κ) (value : ν) :
    Extends (c.use key value) (d.use key value) := by
  have hsub : (c.entries.insert key value).entries <+ (d.entries.insert key value).entries :=
    h.sublist.eraseP.cons_cons _
  have hlen : (d.entries.insert key value).entries.length + c.capacity ≤
      (c.entries.insert key value).entries.length + d.capacity := by
    have := h.length_kerase_add_le key
    rw [AList.entries_insert, AList.entries_insert, length_cons, length_cons]
    omega
  refine ⟨take_sublist_take hsub hlen, ?_⟩
  change (take _ _).length + c.capacity ≤ (take _ _).length + d.capacity
  rw [length_take, length_take]
  omega

theorem delete (h : Extends c d) (key : κ) : Extends (c.delete key) (d.delete key) :=
  ⟨h.sublist.eraseP, h.length_kerase_add_le key⟩

/-- An entry of the larger cache alone becomes its most recent one. -/
theorem use_right (h : Extends c d) (hc : c.entries.lookup key = none)
    (hd : d.entries.lookup key = some value) : Extends c (d.use key value) := by
  have hnot : key ∉ c.entries.entries.keys := AList.lookup_eq_none.mp hc
  have hmem : key ∈ d.entries := AList.lookup_isSome.mp (by rw [hd, Option.isSome_some])
  have huse := Lru.entries_use_of_mem hmem value
  refine ⟨?_, ?_⟩
  · rw [huse, AList.entries_insert, ← kerase_of_notMem_keys hnot]
    exact h.sublist.eraseP.cons _
  · rw [huse, length_insert_of_mem (AList.mem_keys.mp hmem)]
    exact h.length_add_le

/-- **Inclusion.** Nothing that both caches are used for makes the smaller one hold more. -/
theorem call (h : Extends c d) (a : Call κ ν) : Extends (c.call a).2 (d.call a).2 := by
  cases a with
  | find key =>
    cases hc : c.entries.lookup key with
    | some value =>
      rw [Lru.call_find_of_some hc, Lru.call_find_of_some (h.lookup hc)]
      exact h.use key value
    | none =>
      rw [Lru.call_find_of_none hc]
      -- found in the larger cache alone, the key moves there without entering the other
      cases hd : d.entries.lookup key with
      | none => rw [Lru.call_find_of_none hd]; exact h
      | some value =>
        rw [Lru.call_find_of_some hd]
        exact h.use_right hc hd
  | insert key value => exact h.use key value
  | delete key => exact h.delete key
  | clear capacity => exact .new le_rfl
  | size => exact h
  | empty => exact h

theorem after (h : Extends c d) (as : List (Call κ ν)) : Extends (c.after as) (d.after as) := by
  induction as generalizing c d with
  | nil => exact h
  | cons a as ih => exact ih (h.call a)

end Extends

end Extends

/-! ## How long an entry is kept -/

section Kept

variable [DecidableEq κ] {c : Lru κ ν} {key : κ} {value : ν} {used : Finset κ}

/-- The key that a call makes the most recent one, as its reply tells. -/
def usedKey : Call κ ν → Reply κ ν → Finset κ
  | .insert key _, _ => {key}
  | .find key, .iterator (some _) => {key}
  | _, _ => ∅

def usedKeys : List (Call κ ν) → List (Reply κ ν) → Finset κ
  | a :: as, r :: rs => usedKey a r ∪ usedKeys as rs
  | _, _ => ∅

/-- The calls that use other keys, or none, and take nothing out of the cache. -/
def Call.Spares (key : κ) : Call κ ν → Prop
  | .find key' => key' ≠ key
  | .insert key' _ => key' ≠ key
  | .delete _ => False
  | .clear _ => False
  | .size => True
  | .empty => True

instance (key : κ) : DecidablePred fun a : Call κ ν ↦ a.Spares key
  | .find key' => inferInstanceAs (Decidable (key' ≠ key))
  | .insert key' _ => inferInstanceAs (Decidable (key' ≠ key))
  | .delete _ => isFalse id
  | .clear _ => isFalse id
  | .size => isTrue trivial
  | .empty => isTrue trivial

/-- The used keys are exactly the ones in front of the entry, and once there are too many of them
the entry is gone. -/
def Kept (key : κ) (value : ν) (used : Finset κ) (c : Lru κ ν) : Prop :=
  (used.card < c.capacity ∧ ∃ front back : List (Sigma fun _ : κ ↦ ν),
    c.entries.entries = front ++ ⟨key, value⟩ :: back ∧ front.keys.toFinset = used) ∨
  (c.capacity ≤ used.card ∧ key ∉ c.entries)

/-- Where it is kept, with a bound on the entries in front. -/
theorem kept_take (front back : List (Sigma fun _ : κ ↦ ν))
    (hentries : c.entries.entries = (front ++ ⟨key, value⟩ :: back).take c.capacity)
    (hnodup : (front ++ ⟨key, value⟩ :: back).NodupKeys) (hfront : front.keys.toFinset = used) :
    Kept key value used c := by
  have hkeys : front.keys.Nodup := hnodup.sublist (sublist_append_left _ _)
  have hcard : used.card = front.length := by
    rw [← hfront, toFinset_card_of_nodup hkeys]
    exact length_map _
  -- the bound falls behind the entry, or before it
  rcases lt_or_ge used.card c.capacity with hlt | hle
  · refine .inl ⟨hlt, front, back.take (c.capacity - front.length - 1), ?_, hfront⟩
    obtain ⟨n, hn⟩ : ∃ n, c.capacity = front.length + 1 + n :=
      ⟨c.capacity - front.length - 1, by omega⟩
    rw [hentries, take_append, take_of_length_le (by omega)]
    congr 1
    rw [hn, show front.length + 1 + n - front.length = n + 1 by omega, take_succ_cons]
    congr 2
  · refine .inr ⟨hle, ?_⟩
    rw [AList.mem_keys, AList.keys, hentries, take_append_of_le_length (by omega)]
    intro hmem
    have hin : key ∈ front.keys := (take_sublist _ front).map Sigma.fst |>.subset hmem
    rw [NodupKeys, keys_append, keys_cons] at hnodup
    exact (nodup_append.mp hnodup).2.2 key hin key mem_cons_self rfl

theorem kept_use (c : Lru κ ν) (key : κ) (value : ν) : Kept key value ∅ (c.use key value) :=
  kept_take [] (c.entries.entries.kerase key) rfl
    (c.entries.insert key value).nodupKeys rfl

namespace Kept

theorem lookup_eq (h : Kept key value used c) :
    c.entries.lookup key = if used.card < c.capacity then some value else none := by
  rcases h with ⟨hlt, front, back, hentries, -⟩ | ⟨hle, hnot⟩
  · rw [if_pos hlt]
    refine mem_dlookup c.entries.nodupKeys ?_
    rw [hentries]
    exact mem_append_right _ mem_cons_self
  · rw [if_neg (Nat.not_lt.mpr hle)]
    exact AList.lookup_eq_none.mpr hnot

theorem call_capacity {a : Call κ ν} (ha : a.Spares key) : (c.call a).2.capacity = c.capacity := by
  cases a with
  | find key' =>
    cases hc : c.entries.lookup key' with
    | none => rw [Lru.call_find_of_none hc]
    | some value' => rw [Lru.call_find_of_some hc]; rfl
  | insert key' value' => rfl
  | delete key' => exact ha.elim
  | clear capacity => exact ha.elim
  | size => rfl
  | empty => rfl

theorem after_capacity {as : List (Call κ ν)} (has : ∀ a ∈ as, a.Spares key) :
    (c.after as).capacity = c.capacity := by
  induction as generalizing c with
  | nil => rfl
  | cons a as ih =>
    exact (ih fun b hb ↦ has b (mem_cons_of_mem a hb)).trans (call_capacity (has a mem_cons_self))

/-- Another key is used. -/
theorem use (h : Kept key value used c) {key' : κ} (hne : key' ≠ key) (value' : ν) :
    Kept key value (insert key' used) (c.use key' value') := by
  rcases h with ⟨-, front, back, hentries, hfront⟩ | ⟨hle, hnot⟩
  · have hnodup := (c.entries.insert key' value').nodupKeys
    rw [AList.entries_insert, hentries] at hnodup
    -- a key in front of the entry only moves, one from behind it or from outside comes in front
    by_cases hmem : key' ∈ front.keys
    · have herase : (front ++ ⟨key, value⟩ :: back).kerase key' =
          front.kerase key' ++ ⟨key, value⟩ :: back := kerase_append_left hmem
      rw [herase] at hnodup
      refine kept_take (⟨key', value'⟩ :: front.kerase key') back ?_ hnodup ?_
      · change ((c.entries.insert key' value').entries).take _ = _
        rw [AList.entries_insert, hentries, herase]
        rfl
      · rw [← hfront]
        ext k
        simp only [keys_cons, keys_kerase, toFinset_cons, Finset.mem_insert, mem_toFinset]
        by_cases hk : k = key'
        · simp [hk]
        · simp [hk, mem_erase_of_ne]
    · have herase : (front ++ ⟨key, value⟩ :: back).kerase key' =
          front ++ ⟨key, value⟩ :: back.kerase key' := by
        rw [kerase_append_right hmem, kerase_cons_ne hne]
      rw [herase] at hnodup
      refine kept_take (⟨key', value'⟩ :: front) (back.kerase key') ?_ hnodup ?_
      · change ((c.entries.insert key' value').entries).take _ = _
        rw [AList.entries_insert, hentries, herase]
        rfl
      · rw [keys_cons, toFinset_cons, hfront]
  · refine .inr ⟨hle.trans (Finset.card_le_card (Finset.subset_insert _ _)), fun hmem ↦ ?_⟩
    have hin : key ∈ c.entries.insert key' value' := (take_sublist _ _).map Sigma.fst |>.subset hmem
    rcases (AList.mem_insert _).mp hin with heq | hin
    · exact hne heq.symm
    · exact hnot hin

theorem call (h : Kept key value used c) {a : Call κ ν} (ha : a.Spares key) :
    Kept key value (used ∪ usedKey a (c.call a).1) (c.call a).2 := by
  cases a with
  | find key' =>
    cases hc : c.entries.lookup key' with
    | none =>
      rw [Lru.call_find_of_none hc]
      exact (Finset.union_empty used).symm ▸ h
    | some value' =>
      rw [Lru.call_find_of_some hc, usedKey, Finset.union_comm]
      exact h.use ha value'
  | insert key' value' =>
    rw [Lru.call, usedKey, Finset.union_comm]
    exact h.use ha value'
  | delete key' => exact ha.elim
  | clear capacity => exact ha.elim
  | size => exact (Finset.union_empty used).symm ▸ h
  | empty => exact (Finset.union_empty used).symm ▸ h

theorem after (h : Kept key value used c) {as : List (Call κ ν)} (has : ∀ a ∈ as, a.Spares key) :
    Kept key value (used ∪ usedKeys as ((Lru.object κ ν).replies c as)) (c.after as) := by
  induction as generalizing c used with
  | nil => exact (Finset.union_empty used).symm ▸ h
  | cons a as ih =>
    rw [Object.replies_cons_of_call (x := c.call a) rfl, usedKeys, ← Finset.union_assoc]
    exact ih (h.call (has a mem_cons_self)) fun b hb ↦ has b (mem_cons_of_mem a hb)

end Kept

end Kept

end Recency
