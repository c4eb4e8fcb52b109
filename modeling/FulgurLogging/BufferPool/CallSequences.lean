import FulgurLogging.BufferPool.Circular
import Mathlib.Data.List.Induction
import Mathlib.Order.Interval.Finset.Nat

/-!
# Sequences of calls

`Put` and `Get` called one after the other by one caller, in any order and number. A `Get` on a
null slot draws its ticket and then spins for ever, because its caller is the only one who could
fill the slot: the calls behind it are never made. Calls that overlap are a matter of their single
accesses, and not modelled here.

The header says that `Put` blocks if over capacity. The code does not: it stores at the index it
draws, and a `unique_ptr` assigned to deletes what it owned. So a sequence of calls is free of loss
exactly when no `Put` that is made finds `size` buffers outstanding, `HasRoom`, which depends on the
order of the calls alone.

As long as there is room, `Served` describes the state by two lists, the buffers handed out and the
buffers still in the slots. The converse is a count: one buffer more than there are slots cannot be
held.
-/

namespace FulgurLogging

open Ring

namespace CallSequence

inductive Call (β : Type*)
  | put (b : β)
  | get

def Call.isPut {β : Type*} : Call β → Bool
  | put _ => true
  | get => false

/-- The pool and its caller, and what was handed over in each direction. -/
structure State (size : ℕ) (β : Type*) where
  pool : CircularBufferPool size β
  /-- The caller is in a `Get` that has found its slot null. -/
  spins : Bool
  /-- The buffers of the `Put`s completed, the oldest first. -/
  put : List β
  /-- The results of the `Get`s completed, the oldest first. -/
  returned : List (Option β)

variable {size : ℕ} {β : Type*}

/-- The number of calls of `Put`. -/
def puts (calls : List (Call β)) : ℕ := calls.countP Call.isPut

/-- The number of calls of `Get`. -/
def gets (calls : List (Call β)) : ℕ := calls.countP fun c ↦ !c.isPut

@[simp] theorem puts_concat_put (calls : List (Call β)) (b : β) :
    puts (calls ++ [.put b]) = puts calls + 1 := by
  rw [puts, List.countP_append]
  rfl

@[simp] theorem puts_concat_get (calls : List (Call β)) : puts (calls ++ [.get]) = puts calls := by
  rw [puts, List.countP_append]
  rfl

@[simp] theorem gets_concat_put (calls : List (Call β)) (b : β) :
    gets (calls ++ [.put b]) = gets calls := by
  rw [gets, List.countP_append]
  rfl

@[simp] theorem gets_concat_get (calls : List (Call β)) :
    gets (calls ++ [.get]) = gets calls + 1 := by
  rw [gets, List.countP_append]
  rfl

/-! ## Losing nothing -/

/-- The `Get`s have returned the oldest buffers in order, and the slots still hold all others, each
in a slot of its own. -/
structure Lossless (s : State size β) : Prop where
  fifo : s.returned = (s.put.take s.returned.length).map some
  held : ∃ slotOf : ℕ → Fin size,
    Set.InjOn slotOf (Set.Ico s.returned.length s.put.length) ∧
      ∀ k, s.returned.length ≤ k → k < s.put.length → s.pool.buffers (slotOf k) = s.put[k]?

/-- No `Get` is called with nothing outstanding. -/
def Flows (calls : List (Call β)) : Prop := ∀ pre, pre <+: calls → gets pre ≤ puts pre

/-- No `Put` is called with `size` buffers outstanding, up to the first `Get` that is called with
nothing outstanding. -/
def HasRoom (size : ℕ) (calls : List (Call β)) : Prop :=
  ∀ pre b, pre ++ [.put b] <+: calls → Flows pre → puts pre < gets pre + size

theorem flows_nil : Flows ([] : List (Call β)) := fun pre h ↦ by rw [List.prefix_nil.mp h]; rfl

theorem flows_concat_iff {calls : List (Call β)} {c : Call β} :
    Flows (calls ++ [c]) ↔ Flows calls ∧ gets (calls ++ [c]) ≤ puts (calls ++ [c]) := by
  constructor
  · intro h
    exact ⟨fun pre hpre ↦ h pre (hpre.trans (List.prefix_append _ _)), h _ (List.prefix_refl _)⟩
  · rintro ⟨hcalls, hlast⟩ pre hpre
    rcases List.prefix_concat_iff.mp hpre with rfl | hpre'
    · exact hlast
    · exact hcalls pre hpre'

theorem hasRoom_nil : HasRoom size ([] : List (Call β)) :=
  fun pre b h ↦ absurd (List.prefix_nil.mp h) (by simp)

theorem hasRoom_concat_iff {calls : List (Call β)} {c : Call β} :
    HasRoom size (calls ++ [c]) ↔
      HasRoom size calls ∧ ∀ b, c = .put b → Flows calls → puts calls < gets calls + size := by
  constructor
  · intro h
    refine ⟨fun pre b hpre ↦ h pre b (hpre.trans (List.prefix_append _ _)), ?_⟩
    rintro b rfl
    exact h calls b (List.prefix_refl _)
  · rintro ⟨hcalls, hlast⟩ pre b hpre
    rcases List.prefix_concat_iff.mp hpre with heq | hpre'
    · obtain ⟨rfl, hc⟩ := List.append_inj' heq rfl
      exact hlast b (List.singleton_inj.mp hc).symm
    · exact hcalls pre b hpre'

/-- A pool cannot hold more buffers than it has slots. -/
theorem Lossless.length_le {s : State size β} (h : Lossless s) :
    s.put.length ≤ s.returned.length + size := by
  obtain ⟨slotOf, hinj, -⟩ := h.held
  have hcard : (Finset.Ico s.returned.length s.put.length).card ≤
      (Finset.univ : Finset (Fin size)).card :=
    Finset.card_le_card_of_injOn slotOf (fun _ _ ↦ Finset.mem_univ _) (by rwa [Finset.coe_Ico])
  rw [Nat.card_Ico, Finset.card_univ, Fintype.card_fin] at hcard
  omega

/-- Being lossless is a matter of the slots and of what was handed over. -/
theorem Lossless.congr {s s' : State size β} (h : Lossless s)
    (hpool : s'.pool.buffers = s.pool.buffers) (hput : s'.put = s.put)
    (hreturned : s'.returned = s.returned) : Lossless s' := by
  obtain ⟨hfifo, slotOf, hinj, hheld⟩ := h
  refine ⟨?_, slotOf, ?_, ?_⟩
  · rw [hreturned, hput]
    exact hfifo
  · rw [hreturned, hput]
    exact hinj
  · rw [hreturned, hput, hpool]
    exact hheld

/-! ## The calls -/

variable [NeZero size]

def init (size : ℕ) (β : Type*) : State size β := ⟨.new size β, false, [], []⟩

def call (s : State size β) (c : Call β) : State size β :=
  -- whoever spins in a `Get` makes no other call
  if s.spins then s
  else
    match c with
    | .put b => { s with pool := (s.pool.put (some b)).2, put := s.put ++ [b] }
    | .get =>
      match s.pool.get with
      | some (buffer, pool) => { s with pool := pool, returned := s.returned ++ [buffer] }
      | none => { s with pool := s.pool.tailFetchAdd.2, spins := true }

/-- The calls on a fresh pool. -/
def callAll (size : ℕ) [NeZero size] (calls : List (Call β)) : State size β :=
  calls.foldl call (init size β)

theorem callAll_concat (calls : List (Call β)) (c : Call β) :
    callAll size (calls ++ [c]) = call (callAll size calls) c := by
  rw [callAll, List.foldl_concat, callAll]

theorem call_of_spins {s : State size β} (h : s.spins = true) (c : Call β) : call s c = s :=
  if_pos h

theorem call_put_eq {s : State size β} (h : s.spins = false) (b : β) :
    call s (.put b) = ⟨(s.pool.put (some b)).2, false, s.put ++ [b], s.returned⟩ := by
  simp only [call, h, Bool.false_eq_true, if_false]

theorem call_get_of_some {s : State size β} {buffer : Option β} {pool : CircularBufferPool size β}
    (h : s.spins = false) (hget : s.pool.get = some (buffer, pool)) :
    call s .get = ⟨pool, false, s.put, s.returned ++ [buffer]⟩ := by
  simp only [call, h, Bool.false_eq_true, if_false, hget]

theorem call_get_of_none {s : State size β} (h : s.spins = false) (hget : s.pool.get = none) :
    call s .get = ⟨s.pool.tailFetchAdd.2, true, s.put, s.returned⟩ := by
  simp only [call, h, Bool.false_eq_true, if_false, hget]

/-- Without a `Get` that spins, every call has been made and has completed. -/
theorem length_of_not_spins {calls : List (Call β)} (h : (callAll size calls).spins = false) :
    (callAll size calls).put.length = puts calls ∧
      (callAll size calls).returned.length = gets calls := by
  induction calls using List.reverseRecOn with
  | nil => exact ⟨rfl, rfl⟩
  | append_singleton calls c ih =>
    rw [callAll_concat] at h ⊢
    have hspins : (callAll size calls).spins = false := by
      by_contra hne
      rw [Bool.not_eq_false] at hne
      rw [call_of_spins hne, hne] at h
      exact absurd h nofun
    obtain ⟨hput, hreturned⟩ := ih hspins
    cases c with
    | put b =>
      rw [call_put_eq hspins, List.length_append, hput, puts_concat_put, gets_concat_put]
      exact ⟨rfl, hreturned⟩
    | get =>
      cases hget : (callAll size calls).pool.get with
      | none =>
        rw [call_get_of_none hspins hget] at h
        exact absurd h nofun
      | some r =>
        rw [call_get_of_some hspins hget, List.length_append, hreturned, puts_concat_get,
          gets_concat_get]
        exact ⟨hput, rfl⟩

/-! ## While there is room -/

/-- The buffers `out` have been handed out, `xs` are in the slots, and no `Get` spins. -/
structure Served (s : State size β) (out xs : List β) : Prop where
  tracks : s.pool.Tracks out.length xs 0 0
  flowing : s.spins = false
  put : s.put = out ++ xs
  returned : s.returned = out.map some

theorem served_init : Served (init size β) [] [] :=
  ⟨CircularBufferPool.tracks_new, rfl, rfl, rfl⟩

/-- The counts of the calls, read off the state they lead to. -/
theorem Served.counts {calls : List (Call β)} {out xs : List β}
    (h : Served (callAll size calls) out xs) :
    puts calls = out.length + xs.length ∧ gets calls = out.length := by
  obtain ⟨hput, hreturned⟩ := length_of_not_spins h.flowing
  constructor
  · rw [← hput, h.put, List.length_append]
  · rw [← hreturned, h.returned, List.length_map]

namespace Served

variable {s : State size β} {out xs : List β}

/-- With room left, `Put` adds to the slots. -/
theorem call_put (hsize : size ∣ 2 ^ 32) (h : Served s out xs) (hlt : xs.length < size) (b : β) :
    Served (call s (.put b)) out (xs ++ [b]) := by
  rw [call_put_eq h.flowing]
  refine ⟨h.tracks.put hsize hlt b, rfl, ?_, h.returned⟩
  rw [h.put, List.append_assoc]

theorem call_get (hsize : size ∣ 2 ^ 32) {b : β} (h : Served s out (b :: xs)) :
    Served (call s .get) (out ++ [b]) xs := by
  obtain ⟨pool', hget, htracks⟩ := h.tracks.get hsize
  rw [call_get_of_some h.flowing hget]
  refine ⟨?_, rfl, ?_, ?_⟩
  · rw [List.length_append, List.length_singleton]
    exact htracks
  · rw [h.put, List.append_assoc, List.singleton_append]
  · rw [h.returned, List.map_append]
    rfl

/-- On an empty pool `Get` spins, and leaves everything else as it was. -/
theorem call_get_nil (h : Served s out []) :
    (call s .get).spins = true ∧ (call s .get).pool.buffers = s.pool.buffers ∧
      (call s .get).put = s.put ∧ (call s .get).returned = s.returned := by
  rw [call_get_of_none h.flowing h.tracks.get_nil]
  exact ⟨rfl, rfl, rfl, rfl⟩

theorem lossless (h : Served s out xs) : Lossless s := by
  have hlen : s.returned.length = out.length := by rw [h.returned, List.length_map]
  refine ⟨?_, slot size, ?_, ?_⟩
  · rw [hlen, h.returned, h.put, List.take_left]
  · rintro j ⟨hj, hj'⟩ k ⟨hk, hk'⟩ hjk
    rw [hlen] at hj hk
    rw [h.put, List.length_append] at hj' hk'
    have hle := h.tracks.window.length_le
    obtain ⟨j, rfl⟩ := Nat.exists_eq_add_of_le hj
    obtain ⟨k, rfl⟩ := Nat.exists_eq_add_of_le hk
    rw [(slot_add_inj (by omega) (by omega)).mp hjk]
  · intro k hk hk'
    rw [hlen] at hk
    rw [h.put, List.length_append] at hk'
    have hle := h.tracks.window.length_le
    obtain ⟨k, rfl⟩ := Nat.exists_eq_add_of_le hk
    rw [h.tracks.window.slot_add k (by omega), h.put,
      List.getElem?_append_right (Nat.le_add_right _ _), Nat.add_sub_cancel_left]

end Served

/-- Where the calls have led: all of them have completed, or one spins behind which none is made. -/
def InOrder (size : ℕ) [NeZero size] (calls : List (Call β)) : Prop :=
  (Flows calls ∧ ∃ out xs, Served (callAll size calls) out xs) ∨
    (¬Flows calls ∧ (callAll size calls).spins = true ∧ Lossless (callAll size calls))

namespace InOrder

variable {calls : List (Call β)}

theorem served (h : InOrder size calls) (hflows : Flows calls) :
    ∃ out xs, Served (callAll size calls) out xs := by
  rcases h with ⟨-, hserved⟩ | ⟨hnot, -⟩
  · exact hserved
  · exact absurd hflows hnot

theorem lossless (h : InOrder size calls) : Lossless (callAll size calls) := by
  rcases h with ⟨-, out, xs, hserved⟩ | ⟨-, -, hlossless⟩
  · exact hserved.lossless
  · exact hlossless

/-- **The step lemma.** A call that finds room keeps the state in order. -/
theorem concat (hsize : size ∣ 2 ^ 32) (h : InOrder size calls) (c : Call β)
    (hroom : ∀ b, c = .put b → Flows calls → puts calls < gets calls + size) :
    InOrder size (calls ++ [c]) := by
  rcases h with ⟨hflows, out, xs, hs⟩ | ⟨hnot, hspins, hlossless⟩
  · obtain ⟨hputs, hgets⟩ := hs.counts
    cases c with
    | put b =>
      refine .inl ⟨flows_concat_iff.mpr ⟨hflows, ?_⟩, out, xs ++ [b], ?_⟩
      · rw [gets_concat_put, puts_concat_put]
        omega
      · rw [callAll_concat]
        exact hs.call_put hsize (by have := hroom b rfl hflows; omega) b
    | get =>
      cases xs with
      | nil =>
        obtain ⟨hspins, hpool, hput, hreturned⟩ := hs.call_get_nil
        refine .inr ⟨fun hc ↦ ?_, ?_, ?_⟩
        · have hle := (flows_concat_iff.mp hc).2
          rw [gets_concat_get, puts_concat_get, hputs, hgets, List.length_nil] at hle
          omega
        · rw [callAll_concat, hspins]
        · rw [callAll_concat]
          exact hs.lossless.congr hpool hput hreturned
      | cons b xs =>
        refine .inl ⟨flows_concat_iff.mpr ⟨hflows, ?_⟩, out ++ [b], xs, ?_⟩
        · rw [gets_concat_get, puts_concat_get, hputs, hgets, List.length_cons]
          omega
        · rw [callAll_concat]
          exact hs.call_get hsize
  · -- the call is not made
    refine .inr ⟨fun hc ↦ hnot (flows_concat_iff.mp hc).1, ?_, ?_⟩
    · rw [callAll_concat, call_of_spins hspins, hspins]
    · rw [callAll_concat, call_of_spins hspins]
      exact hlossless

end InOrder

/-- **The run lemma.** -/
theorem inOrder_of_hasRoom (hsize : size ∣ 2 ^ 32) {calls : List (Call β)}
    (h : HasRoom size calls) : InOrder size calls := by
  induction calls using List.reverseRecOn with
  | nil => exact .inl ⟨flows_nil, [], [], served_init⟩
  | append_singleton calls c ih =>
    obtain ⟨hcalls, hlast⟩ := hasRoom_concat_iff.mp h
    exact (ih hcalls).concat hsize c hlast

/-- The number of buffers outstanding stays between none and `size`. -/
def StaysWithin (size : ℕ) (calls : List (Call β)) : Prop :=
  ∀ pre, pre <+: calls → gets pre ≤ puts pre ∧ puts pre ≤ gets pre + size

instance (size : ℕ) (calls : List (Call β)) : Decidable (StaysWithin size calls) :=
  decidable_of_iff (∀ pre ∈ calls.inits, gets pre ≤ puts pre ∧ puts pre ≤ gets pre + size)
    (forall_congr' fun pre ↦ by rw [List.mem_inits])

/-- Within these bounds there is always room, and every call completes. -/
theorem StaysWithin.served (hsize : size ∣ 2 ^ 32) {calls : List (Call β)}
    (h : StaysWithin size calls) : ∃ out xs, Served (callAll size calls) out xs := by
  have hroom : HasRoom size calls := by
    intro pre b hpre _
    have hle := (h _ hpre).2
    rw [puts_concat_put, gets_concat_put] at hle
    omega
  exact (inOrder_of_hasRoom hsize hroom).served fun pre hpre ↦ (h pre hpre).1

/-- **Room is all that matters.** After every prefix of the calls nothing has been lost if and only
if no `Put` was made with as many buffers outstanding as there are slots. -/
theorem lossless_iff_hasRoom (calls : List (Call β)) :
    (∀ pre, pre <+: calls → Lossless (callAll bufferPoolSize pre)) ↔
      HasRoom bufferPoolSize calls := by
  have hsize : bufferPoolSize ∣ 2 ^ 32 := by decide
  constructor
  · intro h
    induction calls using List.reverseRecOn with
    | nil => exact hasRoom_nil
    | append_singleton calls c ih =>
      have hcalls := ih fun pre hpre ↦ h pre (hpre.trans (List.prefix_append _ _))
      refine hasRoom_concat_iff.mpr ⟨hcalls, ?_⟩
      rintro b rfl hflows
      by_contra hfull
      obtain ⟨out, xs, hs⟩ := (inOrder_of_hasRoom hsize hcalls).served hflows
      obtain ⟨hputs, hgets⟩ := hs.counts
      -- the `Put` has one buffer more to keep than there are slots, and returns none
      have hcap := (h _ (List.prefix_refl _)).length_le
      rw [callAll_concat, call_put_eq hs.flowing, List.length_append, List.length_singleton,
        hs.put, hs.returned, List.length_append, List.length_map] at hcap
      omega
  · intro h pre hpre
    exact (inOrder_of_hasRoom hsize fun p b hp ↦ h p b (hp.trans hpre)).lossless

/-! ## One `Put` too many -/

/-- One `Put` more than there are slots, and no `Get`. -/
def overfill (size : ℕ) : List (Call ℕ) := (List.range (size + 1)).map .put

theorem served_range (hsize : size ∣ 2 ^ 32) {n : ℕ} (hn : n ≤ size) :
    Served (callAll size ((List.range n).map .put)) [] (List.range n) := by
  induction n with
  | zero => exact served_init
  | succ n ih =>
    rw [List.range_succ, List.map_append, List.map_singleton, callAll_concat]
    exact (ih (Nat.le_of_succ_le hn)).call_put hsize (by rwa [List.length_range]) n

/-- The last `Put` stores over the first buffer, which nobody has got. -/
theorem overfill_overwrites (size : ℕ) [NeZero size] (hsize : size ∣ 2 ^ 32) :
    (callAll size (overfill size)).put = List.range (size + 1) ∧
      (callAll size (overfill size)).returned = [] ∧
      ∀ idx, (callAll size (overfill size)).pool.buffers idx ≠ some 0 := by
  have hs := served_range hsize (Nat.le_refl size)
  have hover : callAll size (overfill size) =
      call (callAll size ((List.range size).map .put)) (.put size) := by
    rw [overfill, List.range_succ, List.map_append, List.map_singleton, callAll_concat]
  have hpos : 0 < size := Nat.pos_of_neZero size
  rw [hover, call_put_eq hs.flowing]
  refine ⟨?_, hs.returned, fun idx hidx ↦ ?_⟩
  · rw [hs.put, List.nil_append, List.range_succ]
  · rw [CircularBufferPool.put, hs.tracks.headFetchAdd_fst hsize, List.length_range, Nat.add_zero,
      List.length_nil, slot_add_self] at hidx
    by_cases hfirst : idx = slot size 0
    · rw [hfirst, CircularBufferPool.store_buffers, Function.update_self, Option.some_inj] at hidx
      omega
    · rw [CircularBufferPool.store_buffers, Function.update_of_ne hfirst] at hidx
      obtain ⟨k, hk, rfl⟩ := hs.tracks.window.eq_some_iff.mp hidx
      obtain ⟨hlt, hzero⟩ := List.getElem?_eq_some_iff.mp hk
      rw [List.getElem_range] at hzero
      exact hfirst (by rw [hzero, List.length_nil])

/-- The first buffer has been put, has not been returned, and is in no slot. -/
theorem overfill_loses_first :
    0 ∈ (callAll bufferPoolSize (overfill bufferPoolSize)).put ∧
      some 0 ∉ (callAll bufferPoolSize (overfill bufferPoolSize)).returned ∧
      (∀ idx, (callAll bufferPoolSize (overfill bufferPoolSize)).pool.buffers idx ≠ some 0) ∧
      ¬ Lossless (callAll bufferPoolSize (overfill bufferPoolSize)) := by
  obtain ⟨hput, hreturned, hslots⟩ := overfill_overwrites bufferPoolSize (by decide)
  refine ⟨?_, ?_, hslots, fun h ↦ ?_⟩
  · rw [hput]
    exact List.mem_range.mpr (Nat.succ_pos _)
  · rw [hreturned]
    exact List.not_mem_nil
  · have hle := h.length_le
    rw [hput, hreturned, List.length_range, List.length_nil] at hle
    omega

end CallSequence

end FulgurLogging
