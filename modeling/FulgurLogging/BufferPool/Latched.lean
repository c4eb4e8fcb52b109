import FulgurLogging.Lib.Machine
import FulgurLogging.Lib.Mutex
import Mathlib.Data.List.Induction
import Mathlib.Logic.Function.Basic

/-!
# The log buffer pool

`LogBufferPool` is an array of 16 slots filled from the front, a count `size_`, and a latch. `Put`
waits until `size_` is below the capacity and only then takes the latch, under which it inserts at
the count. `GetAllBuffers` takes the latch, moves out the slots below the count, and resets it. The
waiting loop is outside the latch, so by the time a `Put` holds the latch its reading may be stale.

## Representation

An index into the array is an `unsigned int`, and `buffers` is total on that type. The slots of the
array are the indices below 16; an access to any other is undefined behaviour in the source, and
what is shown is that none is made. The latch names the thread that holds it. Each load of `size_`,
each acquisition and release of the latch, each update of `size_` and each slot move is a step.

Everything but `waiting` and `latching` happens under the latch, so the invariant `Stocked` speaks
of the data and of one program point, that of the thread in the section.
-/

namespace FulgurLogging

open Transition Mutex

/-- The pool: its slots, its count and its capacity. -/
structure LogBufferPool (β : Type*) where
  /-- `buffers_`, each slot owning a buffer or null. -/
  buffers : UInt32 → Option β
  /-- `size_`. -/
  size : UInt32
  /-- `capacity_`. -/
  capacity : UInt32

namespace LogBufferPool

/-- The constructor; `BUFFER_POOL_SIZE` is 16. -/
def new (β : Type*) : LogBufferPool β := ⟨fun _ ↦ none, 0, 16⟩

variable {T β : Type*}

/-- Where a thread stands. -/
inductive Point (β : Type*)
  /-- Between two calls. -/
  | idle
  /-- In the loop of `Put`, about to load `size_`. -/
  | waiting (buffer : β)
  /-- In `Put`, about to take the latch. -/
  | latching (buffer : β)
  /-- In `Put`, about to add to `size_`. -/
  | adding (buffer : β)
  /-- In `Put`, about to store. -/
  | storing (idx : UInt32) (buffer : β)
  /-- In `GetAllBuffers`, about to take the latch. -/
  | collecting
  /-- In the loop of `GetAllBuffers`, about to load `size_`. -/
  | looping (i : UInt32)
  /-- In the loop of `GetAllBuffers`, about to move a buffer out. -/
  | moving (i : UInt32)
  /-- In `GetAllBuffers`, about to reset `size_`. -/
  | exchanging
  /-- At the end of either function, about to release the latch. -/
  | unlatching
  deriving DecidableEq

/-- Whether the thread holds the latch. -/
def Point.inside : Point β → Bool
  | idle | waiting _ | latching _ | collecting => false
  | adding _ | storing .. | looping _ | moving _ | exchanging | unlatching => true

/-- Whether the thread is a `Put` past its waiting loop that has not taken the latch. -/
def Point.isLatching : Point β → Bool
  | latching _ => true
  | _ => false

structure State (T β : Type*) where
  pool : LogBufferPool β
  latch : Option T
  point : T → Point β
  /-- The buffers of the `Put`s that took the latch, in that order. -/
  put : List β
  /-- What the `GetAllBuffers` pushed to their queues, the oldest first. -/
  handed : List (Option β)

inductive Action (T β : Type*)
  | put (t : T) (b : β)
  | getAllBuffers (t : T)
  | advance (t : T)

def init (T β : Type*) : State T β := ⟨.new β, none, fun _ ↦ .idle, [], []⟩

/-- The thread goes on to a program point. -/
def State.goto [DecidableEq T] (s : State T β) (t : T) (p : Point β) : State T β :=
  { s with point := Function.update s.point t p }

def step [DecidableEq T] (s : State T β) : Action T β → Option (State T β)
  | .put t b =>
    match s.point t with
    | .idle => some (s.goto t (.waiting b))
    | _ => none
  | .getAllBuffers t =>
    match s.point t with
    | .idle => some (s.goto t .collecting)
    | _ => none
  | .advance t =>
    match s.point t with
    | .idle => none
    | .waiting b => some (if s.pool.size < s.pool.capacity then s.goto t (.latching b) else s)
    | .latching b =>
      match s.latch with
      | none => some { s.goto t (.adding b) with latch := some t, put := s.put ++ [b] }
      | some _ => none
    | .adding b =>
      some { s.goto t (.storing s.pool.size b) with
        pool := { s.pool with size := s.pool.size + 1 } }
    | .storing idx b =>
      some { s.goto t .unlatching with
        pool := { s.pool with buffers := Function.update s.pool.buffers idx (some b) } }
    | .collecting =>
      match s.latch with
      | none => some { s.goto t (.looping 0) with latch := some t }
      | some _ => none
    | .looping i => some (s.goto t (if i < s.pool.size then .moving i else .exchanging))
    | .moving i =>
      some { s.goto t (.looping (i + 1)) with
        pool := { s.pool with buffers := Function.update s.pool.buffers i none }
        handed := s.handed ++ [s.pool.buffers i] }
    | .exchanging => some { s.goto t .unlatching with pool := { s.pool with size := 0 } }
    | .unlatching => some { s.goto t .idle with latch := none }

def machine (T β : Type*) [DecidableEq T] : Machine (State T β) (Action T β) := ⟨step⟩

/-! ## The data -/

/-- The buffers handed to a `Put` that has not stored. -/
def Point.carried : Point β → List β
  | adding b | storing _ b => [b]
  | _ => []

/-- What has been added to `size_` ahead of a store. -/
def Point.added : Point β → ℕ
  | storing .. => 1
  | _ => 0

/-- The slots moved out so far, of `n`. -/
def Point.emptied (n : ℕ) : Point β → ℕ
  | looping i | moving i => i.toNat
  | exchanging => n
  | _ => 0

/-- With the thread in the section at `p`, the buffers `out` have been handed out by earlier calls
and the slots were filled with `xs`, some of which the present call may have moved out. -/
structure Stocked (pool : LogBufferPool β) (put : List β) (handed : List (Option β)) (p : Point β)
    (out xs : List β) : Prop where
  capacity : pool.capacity = 16
  room : xs.length + p.carried.length ≤ 16
  size : pool.size.toNat = xs.length + p.added
  slots : ∀ i : UInt32,
    pool.buffers i = if i.toNat < p.emptied xs.length then none else xs[i.toNat]?
  storing : ∀ idx b, p = .storing idx b → idx.toNat = xs.length
  looping : p.emptied xs.length ≤ xs.length
  moving : ∀ i, p = .moving i → i.toNat < xs.length
  put : put = out ++ xs ++ p.carried
  handed : handed = (out ++ xs.take (p.emptied xs.length)).map some

theorem stocked_new : Stocked (.new β) [] [] .idle [] [] :=
  ⟨rfl, Nat.zero_le _, rfl, fun _ ↦ by simp [new], nofun, Nat.le_refl 0, nofun, rfl, rfl⟩

namespace Stocked

variable {pool : LogBufferPool β} {put : List β} {handed : List (Option β)} {out xs : List β}
  {b : β} {i idx : UInt32}

/-- `Put` takes the latch with room left. -/
theorem latch (h : Stocked pool put handed .idle out xs) (hroom : pool.size < pool.capacity)
    (b : β) :
    Stocked pool (put ++ [b]) handed (.adding b) out xs := by
  have hsize : pool.size.toNat = xs.length := h.size
  have hput : put = out ++ xs ++ [] := h.put
  rw [h.capacity] at hroom
  have hlt : xs.length < 16 := hsize ▸ UInt32.lt_iff_toNat_lt.mp hroom
  refine ⟨h.capacity, hlt, h.size, h.slots, nofun, h.looping, nofun, ?_, h.handed⟩
  rw [hput, List.append_nil]
  rfl

theorem add (h : Stocked pool put handed (.adding b) out xs) :
    Stocked { pool with size := pool.size + 1 } put handed (.storing pool.size b) out xs := by
  have hroom : xs.length + 1 ≤ 16 := h.room
  have hsize : pool.size.toNat = xs.length := h.size
  refine ⟨h.capacity, h.room, ?_, h.slots, ?_, h.looping, nofun, h.put, h.handed⟩
  · change (pool.size + 1).toNat = xs.length + 1
    rw [UInt32.toNat_add, hsize, UInt32.toNat_one]
    exact Nat.mod_eq_of_lt (by omega)
  · intro idx c hc
    cases hc
    exact hsize

theorem store (h : Stocked pool put handed (.storing idx b) out xs) :
    Stocked { pool with buffers := Function.update pool.buffers idx (some b) } put handed
      .unlatching out (xs ++ [b]) := by
  have hidx : idx.toNat = xs.length := h.storing idx b rfl
  refine ⟨h.capacity, ?_, ?_, fun i ↦ ?_, nofun, Nat.zero_le _, nofun, ?_, ?_⟩
  · rw [List.length_append]
    exact h.room
  · rw [List.length_append]
    exact h.size
  · change Function.update pool.buffers idx (some b) i = (xs ++ [b])[i.toNat]?
    by_cases hi : i = idx
    · rw [hi, Function.update_self, hidx, List.getElem?_concat_length]
    · have hne : i.toNat ≠ xs.length := fun hc ↦ hi (UInt32.toNat.inj (hc.trans hidx.symm))
      rw [Function.update_of_ne hi, h.slots]
      change xs[i.toNat]? = _
      rcases Nat.lt_or_gt_of_ne hne with hlt | hgt
      · rw [List.getElem?_append_left hlt]
      · rw [List.getElem?_eq_none (Nat.le_of_lt hgt), List.getElem?_eq_none (by simp; omega)]
  · have hput : put = out ++ xs ++ [b] := h.put
    rw [hput, List.append_assoc]
    exact (List.append_nil _).symm
  · rw [h.handed]
    rfl

theorem collect (h : Stocked pool put handed .idle out xs) :
    Stocked pool put handed (.looping 0) out xs :=
  ⟨h.capacity, h.room, h.size, h.slots, nofun, h.looping, nofun, h.put, h.handed⟩

theorem loop (h : Stocked pool put handed (.looping i) out xs) (hlt : i < pool.size) :
    Stocked pool put handed (.moving i) out xs := by
  refine ⟨h.capacity, h.room, h.size, h.slots, nofun, h.looping, ?_, h.put, h.handed⟩
  intro j hj
  cases hj
  have hsize : pool.size.toNat = xs.length := h.size
  exact hsize ▸ UInt32.lt_iff_toNat_lt.mp hlt

/-- The loop ends with all slots moved out. -/
theorem done (h : Stocked pool put handed (.looping i) out xs) (hle : ¬ i < pool.size) :
    Stocked pool put handed .exchanging out xs := by
  have hsize : pool.size.toNat = xs.length := h.size
  have hi : i.toNat = xs.length := by
    rw [UInt32.lt_iff_toNat_lt, hsize] at hle
    exact Nat.le_antisymm h.looping (Nat.le_of_not_lt hle)
  refine ⟨h.capacity, h.room, h.size, ?_, nofun, Nat.le_refl _, nofun, h.put, ?_⟩
  · rw [Point.emptied, ← hi]
    exact h.slots
  · rw [Point.emptied, ← hi]
    exact h.handed

theorem moveOut (h : Stocked pool put handed (.moving i) out xs) :
    Stocked { pool with buffers := Function.update pool.buffers i none } put
      (handed ++ [pool.buffers i]) (.looping (i + 1)) out xs := by
  have hlt : i.toNat < xs.length := h.moving i rfl
  have hroom : xs.length + 0 ≤ 16 := h.room
  have hsucc : (i + 1).toNat = i.toNat + 1 := by
    rw [UInt32.toNat_add, UInt32.toNat_one]
    exact Nat.mod_eq_of_lt (by omega)
  have hslot : pool.buffers i = xs[i.toNat]? := by
    rw [h.slots, Point.emptied, if_neg (Nat.lt_irrefl _)]
  refine ⟨h.capacity, h.room, h.size, fun j ↦ ?_, nofun, ?_, nofun, h.put, ?_⟩
  · change Function.update pool.buffers i none j = _
    rw [Point.emptied, hsucc]
    by_cases hj : j = i
    · rw [hj, Function.update_self, if_pos (Nat.lt_succ_self _)]
    · have hne : j.toNat ≠ i.toNat := fun hc ↦ hj (UInt32.toNat.inj hc)
      rw [Function.update_of_ne hj, h.slots, Point.emptied]
      exact if_congr (by omega) rfl rfl
  · rw [Point.emptied, hsucc]
    exact hlt
  · rw [h.handed, hslot, Point.emptied, Point.emptied, hsucc, List.take_add_one, List.map_append,
      List.map_append, List.map_append, List.append_assoc, List.getElem?_eq_getElem hlt]
    rfl

theorem exchange (h : Stocked pool put handed .exchanging out xs) :
    Stocked { pool with size := 0 } put handed .unlatching (out ++ xs) [] := by
  refine ⟨h.capacity, Nat.zero_le _, rfl, fun i ↦ ?_, nofun, Nat.le_refl 0, nofun, ?_, ?_⟩
  · change pool.buffers i = _
    rw [h.slots, Point.emptied]
    by_cases hi : i.toNat < xs.length
    · rw [if_pos hi]
      rfl
    · rw [if_neg hi, List.getElem?_eq_none (Nat.le_of_not_lt hi)]
      rfl
  · have hput : put = out ++ xs ++ [] := h.put
    rw [hput, List.append_nil]
    exact (List.append_nil _).symm
  · rw [h.handed, Point.emptied, List.take_length, List.take_nil, List.append_nil]

theorem unlatch (h : Stocked pool put handed .unlatching out xs) :
    Stocked pool put handed .idle out xs :=
  ⟨h.capacity, h.room, h.size, h.slots, nofun, h.looping, nofun, h.put, h.handed⟩

end Stocked

/-! ## The threads -/

/-- The program point of the thread in the section. -/
def State.holder (s : State T β) : Point β := s.latch.elim .idle s.point

/-- The latch is held by the thread in the section, and the data fit its program point. -/
structure Consistent (s : State T β) : Prop where
  guarded : Guarded (fun t ↦ (s.point t).inside = true) s.latch
  stocked : ∃ out xs, Stocked s.pool s.put s.handed s.holder out xs

theorem consistent_init : Consistent (init T β) :=
  ⟨Guarded.none_of_forall fun _ ↦ Bool.false_ne_true, [], [], stocked_new⟩

/-- When a `Put` takes the latch, `size_` still is below the capacity. -/
def Fresh (s : State T β) : Action T β → Prop
  | .advance t => (s.point t).isLatching → s.latch = none → s.pool.size < s.pool.capacity
  | _ => True

instance [DecidableEq T] (s : State T β) : ∀ a, Decidable (Fresh s a)
  | .advance t => inferInstanceAs
    (Decidable ((s.point t).isLatching → s.latch = none → s.pool.size < s.pool.capacity))
  | .put _ _ | .getAllBuffers _ => isTrue trivial

/-- Every store is in range and on an empty slot, every move out is in range and of a buffer, and
what was handed out is a prefix of what was put. -/
structure Safe (s : State T β) : Prop where
  store : ∀ t idx b, s.point t = .storing idx b → idx < 16 ∧ s.pool.buffers idx = none
  move : ∀ t i, s.point t = .moving i → i < 16 ∧ s.pool.buffers i ≠ none
  handed : s.handed <+: s.put.map some

namespace Consistent

variable {s : State T β} {t : T} {p : Point β} {out xs : List β} {pool : LogBufferPool β}
  {put : List β} {handed : List (Option β)}

theorem stocked_inside (h : Consistent s) (hp : s.point t = p) (hin : p.inside = true) :
    ∃ out xs, Stocked s.pool s.put s.handed p out xs := by
  obtain ⟨out, xs, hst⟩ := h.stocked
  rw [State.holder, h.guarded.owner_eq (t := t) (by rw [hp, hin]), Option.elim_some, hp] at hst
  exact ⟨out, xs, hst⟩

theorem stocked_free (h : Consistent s) (hfree : s.latch = none) :
    ∃ out xs, Stocked s.pool s.put s.handed .idle out xs := by
  obtain ⟨out, xs, hst⟩ := h.stocked
  rw [State.holder, hfree] at hst
  exact ⟨out, xs, hst⟩

theorem safe (h : Consistent s) : Safe s := by
  refine ⟨fun t idx b hp ↦ ?_, fun t i hp ↦ ?_, ?_⟩
  · obtain ⟨out, xs, hst⟩ := h.stocked_inside hp rfl
    have hidx : idx.toNat = xs.length := hst.storing idx b rfl
    have hroom : xs.length + 1 ≤ 16 := hst.room
    refine ⟨UInt32.lt_iff_toNat_lt.mpr (hidx ▸ hroom), ?_⟩
    have hslot : s.pool.buffers idx = xs[idx.toNat]? :=
      (hst.slots idx).trans (if_neg (Nat.not_lt_zero _))
    rw [hslot, hidx, List.getElem?_eq_none (Nat.le_refl _)]
  · obtain ⟨out, xs, hst⟩ := h.stocked_inside hp rfl
    have hlt : i.toNat < xs.length := hst.moving i rfl
    have hroom : xs.length + 0 ≤ 16 := hst.room
    refine ⟨UInt32.lt_iff_toNat_lt.mpr (Nat.lt_of_lt_of_le hlt hroom), ?_⟩
    rw [hst.slots, Point.emptied, if_neg (Nat.lt_irrefl _), List.getElem?_eq_getElem hlt]
    exact Option.some_ne_none _
  · obtain ⟨out, xs, hst⟩ := h.stocked
    rw [hst.handed, hst.put, List.append_assoc]
    refine List.IsPrefix.map some ((List.prefix_append_right_inj out).mpr ?_)
    exact (List.take_prefix _ _).trans (List.prefix_append _ _)

variable [DecidableEq T]

theorem goto_self : (s.goto t p).point t = p := Function.update_self _ _ _

theorem goto_of_ne {u : T} (hu : u ≠ t) : (s.goto t p).point u = s.point u :=
  Function.update_of_ne hu _ _

theorem goto_frame {u : T} (hu : u ≠ t) :
    ((s.goto t p).point u).inside = true ↔ (s.point u).inside = true := by
  rw [goto_of_ne hu]

/-- A thread outside the section goes on outside it. -/
theorem outside (h : Consistent s) (hout : (s.point t).inside = false) (hp : p.inside = false) :
    Consistent (s.goto t p) := by
  refine ⟨h.guarded.stay (t := t) ?_ fun u hu ↦ goto_frame hu, ?_⟩
  · rw [goto_self, hp, hout]
  · obtain ⟨out, xs, hst⟩ := h.stocked
    refine ⟨out, xs, ?_⟩
    have hholder : (s.goto t p).holder = s.holder := by
      rw [State.holder, State.holder]
      change s.latch.elim .idle (s.goto t p).point = _
      cases hl : s.latch with
      | none => rfl
      | some u =>
        have hu : u ≠ t := by
          rintro rfl
          rw [(h.guarded u).mp hl] at hout
          cases hout
        rw [Option.elim_some, Option.elim_some, goto_of_ne hu]
    rw [hholder]
    exact hst

/-- The thread in the section goes on inside it. -/
theorem inside (h : Consistent s) (hin : (s.point t).inside = true) (hp : p.inside = true)
    (hst : Stocked pool put handed p out xs) :
    Consistent { s.goto t p with pool := pool, put := put, handed := handed } := by
  refine ⟨h.guarded.stay (t := t) ?_ fun u hu ↦ goto_frame hu, out, xs, ?_⟩
  · change ((s.goto t p).point t).inside = true ↔ _
    rw [goto_self, hp, hin]
  · rw [State.holder]
    change Stocked pool put handed (s.latch.elim .idle (s.goto t p).point) out xs
    rwa [h.guarded.owner_eq hin, Option.elim_some, goto_self]

theorem acquire (h : Consistent s) (hfree : s.latch = none) (hp : p.inside = true)
    (hst : Stocked s.pool put s.handed p out xs) :
    Consistent { s.goto t p with latch := some t, put := put } := by
  have hguarded := h.guarded
  rw [hfree] at hguarded
  refine ⟨hguarded.acquire ?_ fun u hu ↦ goto_frame hu, out, xs, ?_⟩
  · change ((s.goto t p).point t).inside = true
    rw [goto_self, hp]
  · change Stocked s.pool put s.handed ((s.goto t p).point t) out xs
    rwa [goto_self]

theorem release (h : Consistent s) (hpoint : s.point t = .unlatching) :
    Consistent { s.goto t .idle with latch := none } := by
  obtain ⟨out, xs, hst⟩ := h.stocked_inside hpoint rfl
  refine ⟨h.guarded.release (t := t) (by rw [hpoint]; rfl) ?_ fun u hu ↦ goto_frame hu, out, xs,
    hst.unlatch⟩
  change ¬ ((s.goto t .idle).point t).inside = true
  rw [goto_self]
  exact Bool.false_ne_true

/-- **The step lemma.** -/
theorem advance (h : Consistent s) (hfresh : Fresh s (.advance t)) {s' : State T β}
    (hstep : step s (.advance t) = some s') : Consistent s' := by
  cases hp : s.point t with
  | idle => simp only [step, hp, reduceCtorEq] at hstep
  | waiting b =>
    simp only [step, hp, Option.some_inj] at hstep
    subst hstep
    split
    next => exact h.outside (by rw [hp]; rfl) rfl
    next => exact h
  | latching b =>
    cases hl : s.latch with
    | some u => simp only [step, hp, hl, reduceCtorEq] at hstep
    | none =>
      simp only [step, hp, hl, Option.some_inj] at hstep
      subst hstep
      obtain ⟨out, xs, hst⟩ := h.stocked_free hl
      exact h.acquire hl rfl (hst.latch (hfresh (by rw [hp]; rfl) hl) b)
  | collecting =>
    cases hl : s.latch with
    | some u => simp only [step, hp, hl, reduceCtorEq] at hstep
    | none =>
      simp only [step, hp, hl, Option.some_inj] at hstep
      subst hstep
      obtain ⟨out, xs, hst⟩ := h.stocked_free hl
      exact h.acquire hl rfl hst.collect
  | unlatching =>
    simp only [step, hp, Option.some_inj] at hstep
    subst hstep
    exact h.release hp
  | adding b =>
    simp only [step, hp, Option.some_inj] at hstep
    subst hstep
    obtain ⟨out, xs, hst⟩ := h.stocked_inside hp rfl
    exact h.inside (by rw [hp]; rfl) rfl hst.add
  | storing idx b =>
    simp only [step, hp, Option.some_inj] at hstep
    subst hstep
    obtain ⟨out, xs, hst⟩ := h.stocked_inside hp rfl
    exact h.inside (by rw [hp]; rfl) rfl hst.store
  | looping i =>
    simp only [step, hp, Option.some_inj] at hstep
    subst hstep
    obtain ⟨out, xs, hst⟩ := h.stocked_inside hp rfl
    split
    next hlt => exact h.inside (by rw [hp]; rfl) rfl (hst.loop hlt)
    next hle => exact h.inside (by rw [hp]; rfl) rfl (hst.done hle)
  | moving i =>
    simp only [step, hp, Option.some_inj] at hstep
    subst hstep
    obtain ⟨out, xs, hst⟩ := h.stocked_inside hp rfl
    exact h.inside (by rw [hp]; rfl) rfl hst.moveOut
  | exchanging =>
    simp only [step, hp, Option.some_inj] at hstep
    subst hstep
    obtain ⟨out, xs, hst⟩ := h.stocked_inside hp rfl
    exact h.inside (by rw [hp]; rfl) rfl hst.exchange

theorem step (h : Consistent s) {a : Action T β} (hfresh : Fresh s a) {s' : State T β}
    (hstep : LogBufferPool.step s a = some s') : Consistent s' := by
  cases a with
  | advance t => exact h.advance hfresh hstep
  | put t b =>
    rw [LogBufferPool.step] at hstep
    split at hstep
    next hp =>
      cases hstep
      exact h.outside (by rw [hp]; rfl) rfl
    next => cases hstep
  | getAllBuffers t =>
    rw [LogBufferPool.step] at hstep
    split at hstep
    next hp =>
      cases hstep
      exact h.outside (by rw [hp]; rfl) rfl
    next => cases hstep

/-- **The run lemma.** -/
theorem run {as : List (Action T β)} {s' : State T β} (h : Consistent s)
    (hfresh : (machine T β).Along Fresh s as) (hrun : (machine T β).run s as = some s') :
    Consistent s' :=
  Machine.PreservesUnder.run (fun _ _ _ hI hC hstep ↦ hI.step hC hstep) h hfresh hrun

/-- A `Put` that takes the latch on a stale reading finds the pool full, and draws the index after
the last slot. -/
theorem exists_not_safe (h : Consistent s) {a : Action T β} (hstale : ¬ Fresh s a) :
    ∃ bs s', (machine T β).run s (a :: bs) = some s' ∧ ¬ Safe s' := by
  cases a with
  | put t b => exact absurd trivial hstale
  | getAllBuffers t => exact absurd trivial hstale
  | advance t =>
    rw [Fresh] at hstale
    push Not at hstale
    obtain ⟨hlatching, hfree, hfull⟩ := hstale
    obtain ⟨b, hp⟩ : ∃ b, s.point t = .latching b := by
      cases hp : s.point t <;> rw [hp] at hlatching <;> first | exact ⟨_, rfl⟩ | cases hlatching
    obtain ⟨out, xs, hst⟩ := h.stocked_free hfree
    rw [hst.capacity] at hfull
    let s₁ : State T β := { s.goto t (.adding b) with latch := some t, put := s.put ++ [b] }
    have hstep : LogBufferPool.step s (.advance t) = some s₁ := by
      simp only [LogBufferPool.step, hp, hfree]
      rfl
    have hp₁ : s₁.point t = .adding b := goto_self
    let s₂ : State T β := { s₁.goto t (.storing s.pool.size b) with
      pool := { s.pool with size := s.pool.size + 1 } }
    have hstep₁ : LogBufferPool.step s₁ (.advance t) = some s₂ := by
      simp only [LogBufferPool.step, hp₁]
      rfl
    refine ⟨[.advance t], s₂, ?_, fun hsafe ↦ hfull (hsafe.store t _ b goto_self).1⟩
    rw [Machine.run_cons_of_step hstep, Machine.run_cons_of_step hstep₁, Machine.run_nil]

end Consistent

/-- **Safe while the readings are fresh.** In every run in which `size_` is below the capacity
whenever a `Put` takes the latch, all slot accesses are in range and on slots in the right state,
and buffers are handed out in the order in which they were put. From there, a `Put` that takes the
latch on a stale reading can go on to store outside the array. -/
theorem safe_while_fresh [DecidableEq T] {as : List (Action T β)} {s : State T β}
    (hrun : (machine T β).run (init T β) as = some s)
    (hfresh : (machine T β).Along Fresh (init T β) as) :
    Safe s ∧ ∀ a, ¬ Fresh s a → ∃ bs s', (machine T β).run s (a :: bs) = some s' ∧ ¬ Safe s' := by
  have hI := consistent_init.run hfresh hrun
  exact ⟨hI.safe, fun a ↦ hI.exists_not_safe⟩

/-- One buffer put by one thread and got by the other, which waits for the latch in between. -/
def handover : List (Action Bool ℕ) :=
  [.put false 7, .advance false, .advance false, .getAllBuffers true, .advance false,
    .advance false, .advance false, .advance true, .advance true, .advance true, .advance true]

theorem safe_handover :
    ∃ s, (machine Bool ℕ).run (init Bool ℕ) handover = some s ∧ s.handed = [some 7] ∧ Safe s :=
  ⟨_, rfl, rfl, (@safe_while_fresh Bool ℕ _ handover _ rfl (by decide)).1⟩

/-- A whole `Put` of one thread. -/
def wholePut (b : ℕ) : List (Action Bool ℕ) :=
  [.put false b, .advance false, .advance false, .advance false, .advance false, .advance false]

/-- With 15 buffers in the pool, both threads pass the waiting loop before either takes the latch.
-/
def overrun : List (Action Bool ℕ) :=
  (List.range 15).flatMap wholePut ++
    [.put false 15, .put true 16, .advance false, .advance true, .advance false, .advance false,
      .advance false, .advance false, .advance true, .advance true]

/-- The second thread is about to store outside the array. -/
theorem overrun_stores_out_of_range :
    ∃ s, (machine Bool ℕ).run (init Bool ℕ) overrun = some s ∧
      s.point true = .storing 16 16 ∧ ¬ Safe s := by
  have hrun : ((machine Bool ℕ).run (init Bool ℕ) overrun).any
      (fun s ↦ s.point true = .storing 16 16) = true := by decide +kernel
  obtain ⟨s, hs, hp⟩ := (Option.any_eq_true _ _).mp hrun
  have hpoint : s.point true = .storing 16 16 := of_decide_eq_true hp
  exact ⟨s, hs, hpoint, fun hsafe ↦ absurd (hsafe.store true 16 16 hpoint).1 (by decide)⟩

end LogBufferPool

end FulgurLogging
