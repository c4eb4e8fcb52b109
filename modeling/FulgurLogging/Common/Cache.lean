import FulgurLogging.Lib.Recency

/-!
# The cache

`Cache` keeps its entries in a hash map, and beside it a list of the keys in the order of their
last use. The map refers to the nodes of the list by iterators, so that a key is moved to the
front without searching the list.

Nothing keeps the two apart but the code itself: an iterator to a node that is no longer in the
list, or a key in one of them alone, would be undefined behaviour at the next use. What is proved
here is that map and list together are a recency list, after any sequence of calls. The assertions
then never fail, and what the callers see is what a recency list replies.

`clear` puts the default capacity in the place of the one that the cache was made with.
-/

namespace FulgurLogging

open List Transition Recency

/-- Where a node of the list lies. -/
abbrev Node : Type := ℕ

/-- A list of keys. Its nodes lie at different places. -/
abbrev KeyList (Key : Type) := AList fun _ : Node ↦ Key

namespace KeyList

variable {Key : Type} (list : KeyList Key)

/-- `splice` to the front, which an iterator to no node of the list does not survive. -/
def splice (it : Node) : Option (KeyList Key) := (list.lookup it).map (list.insert it)

/-- Assigns to the node that an iterator refers to. -/
def assign (it : Node) (key : Key) : Option (KeyList Key) :=
  (list.lookup it).map fun _ ↦ list.replace it key

/-- `list.erase`. -/
def eraseNode (it : Node) : Option (KeyList Key) := (list.lookup it).map fun _ ↦ list.erase it

end KeyList

/-- The hash map, with the order in which it is walked through left open. -/
abbrev Map (Key ValuePtr : Type) := AList fun _ : Key ↦ ValuePtr × Node

/-- Inserts an entry, unless the key has one, and tells whether it did. -/
def Map.emplace {Key ValuePtr : Type} [DecidableEq Key] (map : Map Key ValuePtr) (key : Key)
    (value : ValuePtr × Node) : Map Key ValuePtr × Bool :=
  if key ∈ map then (map, false) else (map.insert key value, true)

structure Cache (Key ValuePtr : Type) where
  map : Map Key ValuePtr
  list : KeyList Key
  capacity : ℕ
  insertThreshold : ℕ
  /-- The place of the next node. -/
  next : Node

namespace Cache

variable {Key ValuePtr : Type}

abbrev defaultCacheSize : ℕ := 100

abbrev defaultCacheInsertThreshold : ℕ := 3

def new (Key ValuePtr : Type) (capacity : ℕ := defaultCacheSize)
    (insertThreshold : ℕ := defaultCacheInsertThreshold) : Cache Key ValuePtr :=
  ⟨∅, ∅, capacity, insertThreshold, 0⟩

variable [DecidableEq Key] (c : Cache Key ValuePtr)

/-- An iterator to an entry, `none` for `end()`. What is no use of the map or the list is `none`. -/
def find (key : Key) : Option (Option Key × Cache Key ValuePtr) :=
  match c.map.lookup key with
  | some (_, it) => do
    let list ← c.list.splice it
    let front ← list.entries.head?
    let list ← list.assign it front.2
    some (some key, { c with list })
  | none => some (none, c)

/-- The loop of `insert`, in at most `fuel` rounds. Each takes the last node off the list, so that
there is nothing left to run out of when the fuel is the length of the list. -/
def evict (capacity : ℕ) : ℕ → Map Key ValuePtr → KeyList Key →
    Option (Map Key ValuePtr × KeyList Key)
  | 0, map, list => if capacity < map.entries.length then none else some (map, list)
  | fuel + 1, map, list =>
    if capacity < map.entries.length then
      -- `back` of an empty list is undefined
      list.entries.getLast?.bind fun deleted ↦
        evict capacity fuel (map.erase deleted.2) (list.erase deleted.1)
    else some (map, list)

/-- The two assertions at both ends of `insert`. -/
def Fits : Prop :=
  c.list.entries.length = c.map.entries.length ∧ c.list.entries.length ≤ c.capacity

instance : Decidable c.Fits := inferInstanceAs (Decidable (_ ∧ _))

def insert (entry : Key × ValuePtr) : Option (Key × Cache Key ValuePtr) := do
  guard c.Fits
  let (map, list, next) ←
    match c.map.lookup entry.1 with
    | none => do
      let list := c.list.insert c.next entry.1
      let front ← list.entries.head?
      let (map, inserted) := c.map.emplace entry.1 (entry.2, front.1)
      guard inserted
      let (map, list) ← evict c.capacity list.entries.length map list
      some (map, list, c.next + 1)
    | some (_, it) => do
      let list ← c.list.splice it
      let front ← list.entries.head?
      some (c.map.insert entry.1 (entry.2, front.1), list, c.next)
  let c' := { c with map, list, next }
  guard c'.Fits
  some (entry.1, c')

def deleteKey (key : Key) : Option (Cache Key ValuePtr) :=
  match c.map.lookup key with
  | some (_, it) => do
    let list ← c.list.eraseNode it
    some { c with list, map := c.map.erase key }
  | none => some c

def size : Option ℕ := do
  guard (c.map.entries.length = c.list.entries.length)
  some c.map.entries.length

def clear : Cache Key ValuePtr where
  map := ∅
  list := ∅
  capacity := defaultCacheSize
  insertThreshold := defaultCacheInsertThreshold
  next := c.next

def empty : Bool := c.map.entries.isEmpty

/-- What an iterator to an entry gives, `none` if the entry is gone. -/
def deref (key : Key) : Option ValuePtr := (c.map.lookup key).map Prod.fst

/-! ## Sequences of calls -/

inductive Call (Key ValuePtr : Type)
  | find (key : Key)
  | insert (entry : Key × ValuePtr)
  | deleteKey (key : Key)
  | clear
  | size
  | empty

/-- An iterator is replied with what it gives at once. -/
def call : Call Key ValuePtr → Option (Reply Key ValuePtr × Cache Key ValuePtr)
  | .find key => do
    let (it, c') ← c.find key
    some (.iterator (it.map fun key ↦ (key, c'.deref key)), c')
  | .insert entry => do
    let (it, c') ← c.insert entry
    some (.iterator (some (it, c'.deref it)), c')
  | .deleteKey key => do
    let c' ← c.deleteKey key
    some (.done, c')
  | .clear => some (.done, c.clear)
  | .size => do
    let n ← c.size
    some (.size n, c)
  | .empty => some (.empty c.empty, c)

def object (Key ValuePtr : Type) [DecidableEq Key] :
    Object (Cache Key ValuePtr) (Call Key ValuePtr) (Reply Key ValuePtr) := ⟨call⟩

/-- The call of a recency list. -/
def Call.spec : Call Key ValuePtr → Recency.Call Key ValuePtr
  | .find key => .find key
  | .insert entry => .insert entry.1 entry.2
  | .deleteKey key => .delete key
  | .clear => .clear defaultCacheSize
  | .size => .size
  | .empty => .empty

/-! ## Map and list together -/

section Mirrors

variable {map map' : Map Key ValuePtr} {list list' : KeyList Key}
  {s : AList fun _ : Key ↦ ValuePtr} {key : Key} {value : ValuePtr} {it : Node}

/-- The list has the keys of `s` in their order, the map its values, and the iterators of the map
refer to the nodes of their keys. -/
structure Mirrors (map : Map Key ValuePtr) (list : KeyList Key)
    (s : AList fun _ : Key ↦ ValuePtr) : Prop where
  keys : list.entries.map Sigma.snd = s.keys
  lookup : ∀ key, (map.lookup key).map Prod.fst = s.lookup key
  node : ∀ key value it, map.lookup key = some (value, it) → list.lookup it = some key

/-- A node that has this key, if it is in the list, and is the only one that may have it. -/
def IsNodeOf (list : KeyList Key) (it : Node) (key : Key) : Prop :=
  ∀ it' key', list.lookup it' = some key' → (it' = it ↔ key' = key)

theorem map_snd_kerase (hnode : IsNodeOf list it key) :
    (list.entries.kerase it).map Sigma.snd = (list.entries.map Sigma.snd).erase key := by
  obtain ⟨entries, hnodup⟩ := list
  replace hnode : ∀ e ∈ entries, e.1 = it ↔ e.2 = key := fun e he ↦
    hnode e.1 e.2 (mem_dlookup hnodup he)
  change (entries.kerase it).map Sigma.snd = (entries.map Sigma.snd).erase key
  clear hnodup
  induction entries with
  | nil => rfl
  | cons e entries ih =>
    have he := hnode e mem_cons_self
    by_cases hit : e.1 = it
    · rw [kerase_cons_eq hit.symm, List.map_cons, he.mp hit, erase_cons_head]
    · have hkey : ¬(e.2 == key) := by simpa using fun h ↦ hit (he.mpr h)
      rw [kerase_cons_ne (Ne.symm hit), List.map_cons, List.map_cons, erase_cons_tail hkey,
        ih fun e' he' ↦ hnode e' (mem_cons_of_mem e he')]

namespace Mirrors

theorem empty : Mirrors (∅ : Map Key ValuePtr) ∅ ∅ :=
  ⟨rfl, fun _ ↦ rfl, fun _ _ _ h ↦ by cases h⟩

theorem congr (h : Mirrors map list s) (hmap : ∀ key, map'.lookup key = map.lookup key) :
    Mirrors map' list s :=
  ⟨h.keys, fun key ↦ (hmap key).symm ▸ h.lookup key,
    fun key value it hkey ↦ h.node key value it (hmap key ▸ hkey)⟩

theorem length_list (h : Mirrors map list s) : list.entries.length = s.entries.length := by
  rw [length_entries s, ← h.keys, length_map]

theorem length_map (h : Mirrors map list s) : map.entries.length = s.entries.length := by
  have hperm : map.keys ~ s.keys := by
    refine (perm_ext_iff_of_nodup map.keys_nodup s.keys_nodup).mpr fun key ↦ ?_
    rw [← AList.mem_keys, ← AList.mem_keys, ← AList.lookup_isSome, ← AList.lookup_isSome,
      ← h.lookup key, Option.isSome_map]
  rw [length_entries, length_entries, hperm.length_eq]

theorem isNodeOf (h : Mirrors map list s) (hit : list.lookup it = some key) :
    IsNodeOf list it key := by
  intro it' key' hit'
  constructor
  · rintro rfl
    exact Option.some_inj.mp (hit'.symm.trans hit)
  · rintro rfl
    have hnodup : (list.entries.map Sigma.snd).Nodup := h.keys ▸ s.keys_nodup
    have hmem : (⟨it', key'⟩ : Sigma fun _ : Node ↦ Key) ∈ list.entries := of_mem_dlookup hit'
    have hmem' : (⟨it, key'⟩ : Sigma fun _ : Node ↦ Key) ∈ list.entries := of_mem_dlookup hit
    exact congrArg Sigma.fst (inj_on_of_nodup_map hnodup hmem hmem' rfl)

/-- A new node. -/
theorem isNodeOf_new (h : Mirrors map list s) (hkey : key ∉ s) (hit : it ∉ list) :
    IsNodeOf list it key := by
  intro it' key' hit'
  have hmem : (⟨it', key'⟩ : Sigma fun _ : Node ↦ Key) ∈ list.entries := of_mem_dlookup hit'
  refine iff_of_false ?_ ?_
  · rintro rfl
    exact hit (AList.mem_keys.mpr (mem_keys_of_mem hmem))
  · rintro rfl
    rw [AList.mem_keys, ← h.keys] at hkey
    exact hkey (mem_map_of_mem hmem)

/-- A key moves to the front, or comes there. -/
theorem insert (h : Mirrors map list s) (hnode : IsNodeOf list it key) (value : ValuePtr) :
    Mirrors (map.insert key (value, it)) (list.insert it key) (s.insert key value) := by
  refine ⟨?_, fun key' ↦ ?_, fun key' value' it' hkey' ↦ ?_⟩
  · rw [AList.entries_insert, List.map_cons, map_snd_kerase hnode, h.keys, AList.keys_insert]
  · by_cases heq : key' = key
    · rw [heq, AList.lookup_insert, AList.lookup_insert, Option.map_some]
    · rw [AList.lookup_insert_ne heq, AList.lookup_insert_ne heq, h.lookup]
  · by_cases heq : key' = key
    · rw [heq, AList.lookup_insert] at hkey'
      obtain rfl : it = it' := congrArg Prod.snd (Option.some_inj.mp hkey')
      rw [AList.lookup_insert, heq]
    · rw [AList.lookup_insert_ne heq] at hkey'
      -- the map entries of other keys point at other nodes
      have hit' := h.node key' value' it' hkey'
      have hne : it' ≠ it := fun hc ↦ heq ((hnode it' key' hit').mp hc)
      rw [AList.lookup_insert_ne hne, hit']

theorem erase (h : Mirrors map list s) (hnode : IsNodeOf list it key) :
    Mirrors (map.erase key) (list.erase it) (s.erase key) := by
  refine ⟨?_, fun key' ↦ ?_, fun key' value' it' hkey' ↦ ?_⟩
  · rw [AList.keys_erase, ← h.keys]
    exact map_snd_kerase hnode
  · by_cases heq : key' = key
    · rw [heq, AList.lookup_erase, AList.lookup_erase, Option.map_none]
    · rw [AList.lookup_erase_ne heq, AList.lookup_erase_ne heq, h.lookup]
  · by_cases heq : key' = key
    · rw [heq, AList.lookup_erase] at hkey'
      cases hkey'
    · rw [AList.lookup_erase_ne heq] at hkey'
      have hit' := h.node key' value' it' hkey'
      have hne : it' ≠ it := fun hc ↦ heq ((hnode it' key' hit').mp hc)
      rw [AList.lookup_erase_ne hne, hit']

theorem evict_of_le {capacity : ℕ} (hle : map.entries.length ≤ capacity) (fuel : ℕ) :
    Cache.evict capacity fuel map list = some (map, list) := by
  cases fuel with
  | zero => exact if_neg (Nat.not_lt.mpr hle)
  | succ fuel => exact if_neg (Nat.not_lt.mpr hle)

/-- The loop takes off what does not fit, and never comes to the end of the list. -/
theorem evict (h : Mirrors map list s) (capacity : ℕ) {fuel : ℕ}
    (hfuel : list.entries.length ≤ fuel) :
    ∃ map' list', Cache.evict capacity fuel map list = some (map', list') ∧
      Mirrors map' list' (truncate capacity s) ∧ list'.entries ⊆ list.entries := by
  induction fuel generalizing map list s with
  | zero =>
    have hlen := h.length_map
    rw [← h.length_list, Nat.le_zero.mp hfuel] at hlen
    refine ⟨map, list, evict_of_le (by omega) 0, ?_, fun _ hmem ↦ hmem⟩
    rwa [truncate_of_le]
    rw [← h.length_map, hlen]
    exact Nat.zero_le _
  | succ fuel ih =>
    have hlen := h.length_map
    rcases le_or_gt map.entries.length capacity with hle | hlt
    · refine ⟨map, list, evict_of_le hle _, ?_, fun _ hmem ↦ hmem⟩
      rwa [truncate_of_le (hlen.symm.trans_le hle)]
    · -- the map has an entry too many, so the list has a last node to delete
      have hne : list.entries ≠ [] := by
        rw [← length_pos_iff_ne_nil, h.length_list]
        omega
      obtain ⟨deleted, hlast⟩ := Option.isSome_iff_exists.mp (getLast?_isSome.mpr hne)
      have hmem : deleted ∈ list.entries := mem_of_getLast? hlast
      have hnode := h.isNodeOf (mem_dlookup list.nodupKeys hmem)
      have hkey : s.keys.getLast? = some deleted.2 := by
        rw [← h.keys, getLast?_map, hlast, Option.map_some]
      have hshorter : (list.entries.kerase deleted.1).length ≤ fuel := by
        have hin : deleted.1 ∈ list.keys := mem_keys_of_mem hmem
        rw [length_kerase, length_erase_of_mem hin, ← length_entries]
        omega
      obtain ⟨map', list', hevict, hmirrors, hsub⟩ := ih (h.erase hnode) hshorter
      refine ⟨map', list', ?_, ?_, fun node hnode' ↦ ?_⟩
      · rw [Cache.evict, if_pos hlt, hlast]
        exact hevict
      · rwa [erase_getLast hkey, truncate_truncate (by omega)] at hmirrors
      · exact (kerase_sublist _ _).subset (hsub hnode')

end Mirrors

end Mirrors

/-! ## The cache as a recency list -/

section Refines

variable {c c' : Cache Key ValuePtr} {l : Lru Key ValuePtr} {key : Key} {value : ValuePtr}
  {it : Node}

structure Refines (c : Cache Key ValuePtr) (l : Lru Key ValuePtr) : Prop where
  mirrors : Mirrors c.map c.list l.entries
  capacity : c.capacity = l.capacity
  fresh : ∀ node ∈ c.list, node < c.next

namespace Refines

theorem new (capacity insertThreshold : ℕ) :
    Refines (Cache.new Key ValuePtr capacity insertThreshold) (.new Key ValuePtr capacity) :=
  ⟨.empty, rfl, fun _ h ↦ absurd h (AList.notMem_empty _)⟩

theorem clear (c : Cache Key ValuePtr) : Refines c.clear (.new Key ValuePtr defaultCacheSize) :=
  ⟨.empty, rfl, fun _ h ↦ absurd h (AList.notMem_empty _)⟩

theorem fits (h : Refines c l) : c.Fits := by
  rw [Fits, h.mirrors.length_list, h.mirrors.length_map, h.capacity]
  exact ⟨rfl, l.length_le⟩

theorem deref (h : Refines c l) (key : Key) : c.deref key = l.entries.lookup key :=
  h.mirrors.lookup key

theorem lookup_of_some (h : Refines c l) (hkey : c.map.lookup key = some (value, it)) :
    l.entries.lookup key = some value := by
  rw [← h.mirrors.lookup, hkey, Option.map_some]

theorem mem (h : Refines c l) (hkey : c.map.lookup key = some (value, it)) : key ∈ l.entries :=
  AList.lookup_isSome.mp (by rw [h.lookup_of_some hkey, Option.isSome_some])

theorem lookup_of_none (h : Refines c l) (hkey : c.map.lookup key = none) :
    l.entries.lookup key = none := by
  rw [← h.mirrors.lookup, hkey, Option.map_none]

/-- What is found moves to the front. The assignment that follows changes nothing. -/
theorem find (h : Refines c l) (hkey : c.map.lookup key = some (value, it)) :
    ∃ c', c.find key = some (some key, c') ∧ Refines c' (l.use key value) := by
  have hit := h.mirrors.node key value it hkey
  have hnode := h.mirrors.isNodeOf hit
  have hreplace : (c.list.insert it key).replace it key = c.list.insert it key :=
    AList.ext (kreplace_self (c.list.insert it key).nodupKeys mem_cons_self)
  refine ⟨{ c with list := c.list.insert it key }, ?_, ⟨?_, h.capacity, ?_⟩⟩
  · simp only [Cache.find, hkey, KeyList.splice, KeyList.assign, hit, Option.map_some,
      AList.entries_insert, List.head?_cons, AList.lookup_insert, hreplace, Option.bind_eq_bind,
      Option.bind_some]
  · rw [Lru.entries_use_of_mem (h.mem hkey)]
    refine (h.mirrors.insert hnode value).congr fun key' ↦ ?_
    by_cases heq : key' = key
    · rw [heq, AList.lookup_insert, hkey]
    · rw [AList.lookup_insert_ne heq]
  · intro node hmem
    rcases (AList.mem_insert _).mp hmem with rfl | hmem
    · exact h.fresh node (AList.lookup_isSome.mp (by rw [hit, Option.isSome_some]))
    · exact h.fresh node hmem

theorem insert (h : Refines c l) (entry : Key × ValuePtr) :
    ∃ c', c.insert entry = some (entry.1, c') ∧ Refines c' (l.use entry.1 entry.2) := by
  obtain ⟨key, value⟩ := entry
  cases hkey : c.map.lookup key with
  | none =>
    -- a new node in front of the list, and then the loop
    have hmap : key ∉ c.map := AList.lookup_eq_none.mp hkey
    have hnot : key ∉ l.entries := AList.lookup_eq_none.mp (h.lookup_of_none hkey)
    have hnode := h.mirrors.isNodeOf_new hnot fun hnext ↦ (h.fresh c.next hnext).false
    obtain ⟨map, list, hevict, hmirrors, hsub⟩ :=
      (h.mirrors.insert hnode value).evict c.capacity le_rfl
    have hc' : Refines ⟨map, list, c.capacity, c.insertThreshold, c.next + 1⟩
        (l.use key value) := by
      refine ⟨?_, h.capacity, fun node hmem ↦ ?_⟩
      · rwa [h.capacity] at hmirrors
      · obtain ⟨e, he, rfl⟩ := mem_map.mp hmem
        rcases mem_cons.mp (hsub he) with rfl | he
        · exact Nat.lt_succ_self _
        · exact (h.fresh _ (mem_keys_of_mem ((kerase_sublist _ _).subset he))).trans
            (Nat.lt_succ_self _)
    refine ⟨_, ?_, hc'⟩
    simp only [Cache.insert, guard, if_pos h.fits, hkey, AList.entries_insert, List.head?_cons,
      Map.emplace, if_neg hmap, Option.bind_eq_bind, Option.bind_some, pure, if_true]
    rw [AList.entries_insert] at hevict
    rw [hevict, Option.bind_some, if_pos hc'.fits]
    rfl
  | some entry =>
    obtain ⟨old, it⟩ := entry
    have hit := h.mirrors.node key old it hkey
    have hnode := h.mirrors.isNodeOf hit
    have hc' : Refines { c with map := c.map.insert key (value, it), list := c.list.insert it key }
        (l.use key value) := by
      refine ⟨?_, h.capacity, fun node hmem ↦ ?_⟩
      · rw [Lru.entries_use_of_mem (h.mem hkey)]
        exact h.mirrors.insert hnode value
      · rcases (AList.mem_insert _).mp hmem with rfl | hmem
        · exact h.fresh node (AList.lookup_isSome.mp (by rw [hit, Option.isSome_some]))
        · exact h.fresh node hmem
    refine ⟨_, ?_, hc'⟩
    simp only [Cache.insert, guard, if_pos h.fits, hkey, KeyList.splice, hit, Option.map_some,
      AList.entries_insert, List.head?_cons, Option.bind_eq_bind, Option.bind_some, pure]
    rw [if_pos hc'.fits]
    rfl

theorem deleteKey (h : Refines c l) (key : Key) :
    ∃ c', c.deleteKey key = some c' ∧ Refines c' (l.delete key) := by
  cases hkey : c.map.lookup key with
  | none =>
    have hnot : key ∉ l.entries := AList.lookup_eq_none.mp (h.lookup_of_none hkey)
    have hdelete : (l.delete key).entries = l.entries :=
      AList.ext (kerase_of_notMem_keys hnot)
    refine ⟨c, by rw [Cache.deleteKey, hkey], ⟨?_, h.capacity, h.fresh⟩⟩
    rw [hdelete]
    exact h.mirrors
  | some entry =>
    obtain ⟨value, it⟩ := entry
    have hit := h.mirrors.node key value it hkey
    refine ⟨{ c with map := c.map.erase key, list := c.list.erase it }, ?_, ?_⟩
    · simp only [Cache.deleteKey, hkey, KeyList.eraseNode, hit, Option.map_some,
        Option.bind_eq_bind, Option.bind_some]
    · exact ⟨h.mirrors.erase (h.mirrors.isNodeOf hit), h.capacity,
        fun node hmem ↦ h.fresh node (AList.mem_erase.mp hmem).2⟩

/-- Every call succeeds, and is answered as by the recency list. -/
theorem call (h : Refines c l) (a : Call Key ValuePtr) :
    ∃ c', c.call a = some ((l.call a.spec).1, c') ∧ Refines c' (l.call a.spec).2 := by
  have hlist := h.mirrors.length_list
  have hmap := h.mirrors.length_map
  cases a with
  | find key =>
    cases hkey : c.map.lookup key with
    | none =>
      rw [Call.spec, Lru.call_find_of_none (h.lookup_of_none hkey)]
      refine ⟨c, ?_, h⟩
      simp only [Cache.call, Cache.find, hkey, Option.bind_eq_bind, Option.bind_some,
        Option.map_none]
    | some entry =>
      obtain ⟨value, it⟩ := entry
      obtain ⟨c', hfind, hc'⟩ := h.find hkey
      rw [Call.spec, Lru.call_find_of_some (h.lookup_of_some hkey)]
      refine ⟨c', ?_, hc'⟩
      have hderef : c'.deref key = some value := by
        rw [hc'.deref, Lru.entries_use_of_mem (h.mem hkey), AList.lookup_insert]
      simp only [Cache.call, hfind, Option.bind_eq_bind, Option.bind_some, Option.map_some, hderef]
  | insert entry =>
    obtain ⟨c', hinsert, hc'⟩ := h.insert entry
    refine ⟨c', ?_, hc'⟩
    simp only [Cache.call, hinsert, Option.bind_eq_bind, Option.bind_some, hc'.deref, Call.spec,
      Lru.call]
  | deleteKey key =>
    obtain ⟨c', hdelete, hc'⟩ := h.deleteKey key
    refine ⟨c', ?_, hc'⟩
    simp only [Cache.call, hdelete, Option.bind_eq_bind, Option.bind_some, Call.spec, Lru.call]
  | clear => exact ⟨c.clear, rfl, .clear c⟩
  | size =>
    have hsize : c.size = some l.entries.entries.length := by
      simp only [Cache.size, guard, if_pos (hmap.trans hlist.symm), Option.bind_eq_bind,
        Option.bind_some, pure]
      rw [hmap]
    refine ⟨c, ?_, h⟩
    simp only [Cache.call, hsize, Option.bind_eq_bind, Option.bind_some, Call.spec, Lru.call]
  | empty =>
    have hempty : c.empty = l.entries.entries.isEmpty := by
      rw [Cache.empty, Bool.eq_iff_iff, isEmpty_iff_length_eq_zero, isEmpty_iff_length_eq_zero,
        hmap]
    refine ⟨c, ?_, h⟩
    simp only [Cache.call, hempty, Call.spec, Lru.call]

/-- **The cache is a recency list**, over whole sequences of calls. -/
theorem run (h : Refines c l) (calls : List (Call Key ValuePtr)) :
    ∃ c', (object Key ValuePtr).machine.run c calls = some c' ∧
      Refines c' (l.after (calls.map Call.spec)) ∧
      (object Key ValuePtr).replies c calls =
        (Lru.object Key ValuePtr).replies l (calls.map Call.spec) := by
  induction calls generalizing c l with
  | nil => exact ⟨c, rfl, h, rfl⟩
  | cons a calls ih =>
    obtain ⟨c₁, hcall, hc₁⟩ := h.call a
    obtain ⟨c', hrun, hc', hreplies⟩ := ih hc₁
    refine ⟨c', ?_, hc', ?_⟩
    · have hstep : (object Key ValuePtr).machine.step c a = some c₁ := by
        rw [Object.machine_step]
        exact congrArg (Option.map Prod.snd) hcall
      rw [Machine.run_cons_of_step hstep, hrun]
    · rw [Object.replies_cons_of_call hcall, List.map_cons,
        Object.replies_cons_of_call (x := l.call a.spec) rfl, hreplies]

end Refines

end Refines

/-! ## What the callers may rely on -/

/-- **Refinement.** No sequence of calls fails an assertion or uses an iterator to a node that is
gone, and the replies are those of a recency list, which never has more entries than fit. -/
theorem replies_as_recency_list (capacity insertThreshold : ℕ) (calls : List (Call Key ValuePtr)) :
    ∃ c, (object Key ValuePtr).machine.run (new Key ValuePtr capacity insertThreshold) calls =
        some c ∧
      c.list.entries.length ≤ c.capacity ∧
      (object Key ValuePtr).replies (new Key ValuePtr capacity insertThreshold) calls =
        (Lru.object Key ValuePtr).replies (.new Key ValuePtr capacity) (calls.map Call.spec) := by
  have hnew : Refines (new Key ValuePtr capacity insertThreshold) (.new Key ValuePtr capacity) :=
    .new _ _
  obtain ⟨c, hrun, hc, hreplies⟩ := hnew.run calls
  exact ⟨c, hrun, hc.fits.2, hreplies⟩

/-- **Inclusion.** A cache with a larger capacity that gets the same calls holds, with the same
values and in the same order, all that one with a smaller capacity holds. -/
theorem larger_holds_all {m n : ℕ} (h : m ≤ n) (insertThreshold insertThreshold' : ℕ)
    (calls : List (Call Key ValuePtr)) :
    ∃ c d, (object Key ValuePtr).machine.run (new Key ValuePtr m insertThreshold) calls = some c ∧
      (object Key ValuePtr).machine.run (new Key ValuePtr n insertThreshold') calls = some d ∧
      c.list.entries.map Sigma.snd <+ d.list.entries.map Sigma.snd ∧
      ∀ key value, c.deref key = some value → d.deref key = some value := by
  have hm : Refines (new Key ValuePtr m insertThreshold) (.new Key ValuePtr m) := .new _ _
  have hn : Refines (new Key ValuePtr n insertThreshold') (.new Key ValuePtr n) := .new _ _
  obtain ⟨c, hcrun, hc, -⟩ := hm.run calls
  obtain ⟨d, hdrun, hd, -⟩ := hn.run calls
  have hmn : Extends (.new Key ValuePtr m) (.new Key ValuePtr n) := .new h
  have hext := hmn.after (calls.map Call.spec)
  refine ⟨c, d, hcrun, hdrun, ?_, fun key value hvalue ↦ ?_⟩
  · rw [hc.mirrors.keys, hd.mirrors.keys]
    exact hext.sublist.map Sigma.fst
  · rw [hc.deref] at hvalue
    rw [hd.deref]
    exact hext.lookup hvalue

theorem larger_holds_all_found :
    ∃ c d, (object ℕ ℕ).machine.run (new ℕ ℕ 1)
        [.insert (7, 70), .insert (8, 80), .find 7, .insert (9, 90)] = some c ∧
      (object ℕ ℕ).machine.run (new ℕ ℕ 2)
        [.insert (7, 70), .insert (8, 80), .find 7, .insert (9, 90)] = some d ∧
      c.list.entries.map Sigma.snd <+ d.list.entries.map Sigma.snd ∧
      ∀ key value, c.deref key = some value → d.deref key = some value :=
  larger_holds_all (by decide) 3 3 _

/-- **Eviction.** While other keys are looked up and inserted, and nothing is deleted or cleared,
the entry of `key` is kept exactly as long as fewer other keys than the capacity have been inserted
or found. -/
theorem kept_iff_used_lt (capacity insertThreshold : ℕ) (before : List (Call Key ValuePtr))
    (key : Key) (value : ValuePtr) {calls : List (Call Key ValuePtr)}
    (hcalls : ∀ a ∈ calls, a.spec.Spares key) :
    ∃ c c', (object Key ValuePtr).machine.run (new Key ValuePtr capacity insertThreshold)
        (before ++ [.insert (key, value)]) = some c ∧
      (object Key ValuePtr).machine.run c calls = some c' ∧
      c'.deref key =
        if (usedKeys (calls.map Call.spec) ((object Key ValuePtr).replies c calls)).card <
          c.capacity then some value else none := by
  have hnew : Refines (new Key ValuePtr capacity insertThreshold) (.new Key ValuePtr capacity) :=
    .new _ _
  obtain ⟨c, hrun, hc, -⟩ := hnew.run (before ++ [.insert (key, value)])
  obtain ⟨c', hrun', hc', hreplies⟩ := hc.run calls
  refine ⟨c, c', hrun, hrun', ?_⟩
  have hspares : ∀ a ∈ calls.map Call.spec, a.Spares key := by
    intro a ha
    obtain ⟨b, hb, rfl⟩ := mem_map.mp ha
    exact hcalls b hb
  have hkept := (kept_use ((Lru.new Key ValuePtr capacity).after (before.map Call.spec)) key
    value).after hspares
  rw [List.map_append] at hc hc' hreplies
  rw [Lru.after, foldl_append] at hc hc' hreplies
  rw [hc'.deref, hreplies, hc.capacity]
  have hlookup := hkept.lookup_eq
  rw [Finset.empty_union, Kept.after_capacity hspares] at hlookup
  exact hlookup

theorem kept_while_other_used :
    ∃ c c', (object ℕ ℕ).machine.run (new ℕ ℕ 2) ([] ++ [.insert (7, 70)]) = some c ∧
      (object ℕ ℕ).machine.run c [.insert (8, 80), .find 9, .find 8, .size] = some c' ∧
      c'.deref 7 =
        if (usedKeys ([Call.insert (8, 80), .find 9, .find 8, .size].map Call.spec)
          ((object ℕ ℕ).replies c [.insert (8, 80), .find 9, .find 8, .size])).card < c.capacity
        then some 70 else none :=
  kept_iff_used_lt 2 3 [] 7 70 (by decide)

/-- **Clearing.** A cache that has been cleared behaves as one that was made with no arguments. What
it was made with is forgotten. -/
theorem clear_forgets_arguments (capacity insertThreshold : ℕ)
    (before calls : List (Call Key ValuePtr)) :
    (object Key ValuePtr).replies (new Key ValuePtr capacity insertThreshold)
        (before ++ .clear :: calls) =
      (object Key ValuePtr).replies (new Key ValuePtr capacity insertThreshold) before ++
        .done :: (object Key ValuePtr).replies (new Key ValuePtr) calls := by
  have hnew : Refines (new Key ValuePtr capacity insertThreshold) (.new Key ValuePtr capacity) :=
    .new _ _
  have hdefault : Refines (new Key ValuePtr) (.new Key ValuePtr defaultCacheSize) := .new _ _
  obtain ⟨c, hrun, -, -⟩ := hnew.run before
  obtain ⟨-, -, -, hcleared⟩ := (Refines.clear c).run calls
  obtain ⟨-, -, -, hreplies⟩ := hdefault.run calls
  rw [Object.replies_append hrun, Object.replies_cons_of_call (x := (.done, c.clear)) rfl,
    hcleared, hreplies]

/-- Made for one entry, it holds two after it has been cleared. -/
example : (object ℕ ℕ).replies (new ℕ ℕ 1) [.clear, .insert (7, 70), .insert (8, 80), .size] =
    [.done, .iterator (some (7, some 70)), .iterator (some (8, some 80)), .size 2] := by
  decide

end Cache

end FulgurLogging
