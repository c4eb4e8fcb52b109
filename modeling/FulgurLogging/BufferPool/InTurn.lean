import FulgurLogging.BufferPool.Circulation
import Mathlib.Data.List.Rotate

/-!
# Buffers go round in turn

Two threads feed each other, and nothing orders their steps. The order in which the buffers come to
each of them is fixed all the same. A thread takes what its pool holds, from the front, and then
what comes to its end: the buffer in the other thread's hand, what the other pool holds, and at last
the buffer in its own hand. `ahead` is that list. A store changes it for neither thread, since the
buffer only goes from a hand to the place behind it, and a `Get` moves the front of the thread's own
list to its end.

So the list is the one the first pool was filled with, rotated by the number of `Get`s the thread
has made, and its next `Get` returns the buffer at that number, counted modulo the number of
buffers.
-/

namespace FulgurLogging

open Ring Transition Traffic

/-! ## Taking turns -/

section Turns

variable {β : Type*} {base taken rest : List β} {k : ℕ}

/-- From the `k`-th turn on, what the next `n` turns give. -/
def turns (base : List β) (k n : ℕ) : List (Option β) :=
  (List.range n).map fun i ↦ base[(k + i) % base.length]?

theorem turns_add (base : List β) (k m n : ℕ) :
    turns base k (m + n) = turns base k m ++ turns base (k + m) n := by
  rw [turns, List.range_add, List.map_append, List.map_map]
  refine congrArg _ (List.map_congr_left fun i _ ↦ ?_)
  rw [Function.comp_apply, Nat.add_assoc]

/-- What is at the front of a rotated list is what the next turns give. -/
theorem turns_of_rotate (h : base.rotate k = taken ++ rest) :
    turns base k taken.length = taken.map some := by
  refine List.ext_getElem? fun i ↦ ?_
  rw [turns, List.getElem?_map, List.getElem?_map]
  by_cases hi : i < taken.length
  · have hlen : i < base.length := by
      rw [← List.length_rotate base k, h, List.length_append]
      exact Nat.lt_add_right _ hi
    have hrotate := List.getElem?_rotate (n := k) hlen
    rw [h, List.getElem?_append_left hi, List.getElem?_eq_getElem hi, Nat.add_comm] at hrotate
    rw [List.getElem?_range hi, List.getElem?_eq_getElem hi, Option.map_some, Option.map_some,
      ← hrotate]
  · rw [Nat.not_lt] at hi
    rw [List.getElem?_eq_none hi, List.getElem?_eq_none (by rwa [List.length_range])]
    rfl

/-- After these turns, it is at the end. -/
theorem rotate_add_length (h : base.rotate k = taken ++ rest) :
    base.rotate (k + taken.length) = rest ++ taken := by
  rw [← List.rotate_rotate, h, List.rotate_append_length_eq]

end Turns

/-! ## One access at a time -/

namespace Mover

variable {size : ℕ} {β : Type*} {pool : CircularBufferPool size β} {m : Mover size β}

/-- What `Get` returns with this access, if it returns. -/
def returns (pool : CircularBufferPool size β) : Mover size β → List (Option β)
  | moving idx => [pool.buffers idx]
  | _ => []

theorem hand_of_taking (hm : m.taking = true) : m.hand = none ∧ m.load = 0 ∧ m.putTickets = 0 := by
  cases m with
  | idle | testing _ | moving _ => exact ⟨rfl, rfl, rfl⟩
  | _ => cases hm

theorem returns_of_not_taking (hm : m.taking = false) : m.returns pool = [] := by
  cases m with
  | holding | storing => rfl
  | _ => cases hm

variable [NeZero size] {lo lo' free puts gets : ℕ} {xs xs' : List β}

/-- **An access of `Get`** goes from an empty hand to what it takes off the front. -/
theorem act_take_front (hsize : size ∣ 2 ^ 32) (hm : m.taking = true)
    (htracks : pool.Tracks lo xs puts m.getTickets) (hfits : m.Fits lo xs free) :
    ∃ bs, xs = (m.act pool).2.hand.toList ++ bs ∧
      (m.act pool).1.Tracks (lo + (m.act pool).2.load) bs puts (m.act pool).2.getTickets ∧
      (m.act pool).2.Fits (lo + (m.act pool).2.load) bs free ∧
      m.returns pool = (m.act pool).2.hand.toList.map some ∧
      (m.act pool).2.hand.toList.length = (m.act pool).2.load ∧
      (m.act pool).2.putTickets = 0 := by
  cases m with
  | idle =>
    exact ⟨xs, rfl, htracks.tailFetchAdd, htracks.tailFetchAdd_fst hsize, rfl, rfl, rfl⟩
  | testing idx =>
    obtain rfl : idx = slot size lo := hfits
    have hfull := htracks.holdsBuffer_front
    rw [act]
    split
    next h =>
      rw [hfull] at h
      exact ⟨xs, rfl, htracks, ⟨rfl, by simpa using h⟩, rfl, rfl, rfl⟩
    next => exact ⟨xs, rfl, htracks, rfl, rfl, rfl, rfl⟩
  | moving idx =>
    obtain ⟨rfl, hne⟩ := hfits
    obtain ⟨b, bs, rfl⟩ := List.exists_cons_of_ne_nil hne
    obtain ⟨hfst, hsnd⟩ := htracks.moveOut
    rw [act, hfst]
    refine ⟨bs, rfl, hsnd, Option.some_ne_none b, ?_, rfl, rfl⟩
    rw [CircularBufferPool.moveOut_fst] at hfst
    rw [returns, hfst]
    rfl
  | holding => cases hm
  | storing => cases hm

/-- **An access of `Put`** goes on holding the buffer in hand, or adds it at the end. -/
theorem act_give_back (hsize : size ∣ 2 ^ 32) (hm : m.taking = false)
    (htracks : pool.Tracks lo xs m.putTickets gets) (hfits : m.Fits lo' xs' (lo + xs.length))
    (hroom : xs.length < size) :
    ∃ ys, m.hand.toList = ys ++ (m.act pool).2.hand.toList ∧
      (m.act pool).1.Tracks lo (xs ++ ys) (m.act pool).2.putTickets gets ∧
      (m.act pool).2.Fits lo' xs' (lo + (xs ++ ys).length) ∧
      ys.length + (m.act pool).2.load = m.load ∧ (m.act pool).2.getTickets = m.getTickets := by
  cases m with
  | idle => cases hm
  | testing => cases hm
  | moving => cases hm
  | holding buffer =>
    refine ⟨[], rfl, ?_, ?_, rfl, rfl⟩
    · rw [List.append_nil]
      exact htracks.headFetchAdd
    · rw [List.append_nil]
      exact ⟨htracks.headFetchAdd_fst hsize, hfits⟩
  | storing idx buffer =>
    obtain ⟨rfl, hne⟩ := hfits
    obtain ⟨b, rfl⟩ := Option.ne_none_iff_exists'.mp hne
    exact ⟨[b], rfl, htracks.store hroom b, trivial, rfl, rfl⟩

end Mover

namespace Traffic

variable {size : ℕ} [NeZero size] {P T β : Type*} [DecidableEq P] [DecidableEq T]

/-- What the calls of `Get` by one thread return, one after the other. -/
def returned (r : Routes P T) (t : T) : State size P T β → List T → List (Option β)
  | _, [] => []
  | s, u :: us =>
    (if u = t then (s.mover u).returns (s.pool (touched r s u)) else []) ++
      returned r t (advance r s u) us

end Traffic

namespace Circulation

variable {size : ℕ} {β : Type*} {s : State size Side Side β} {xs : Side → List β} {t : Side}

/-! ## The order -/

/-- What the thread takes next, as long as nothing new comes in. -/
def ahead (s : State size Side Side β) (xs : Side → List β) (t : Side) : List β :=
  xs t ++ (s.mover t.other).hand.toList ++ (xs t.other ++ (s.mover t).hand.toList)

theorem Side.eq_or_eq_other (t u : Side) : u = t ∨ u = t.other := by
  cases t <;> cases u <;> decide

section Ahead

variable {pool : Side → CircularBufferPool size β} {m : Mover size β} {ys : List β}

theorem ahead_update_self :
    ahead ⟨pool, Function.update s.mover t m⟩ (Function.update xs t ys) t =
      ys ++ (s.mover t.other).hand.toList ++ (xs t.other ++ m.hand.toList) := by
  simp only [ahead, Function.update_self, Function.update_of_ne (Side.other_ne t)]

theorem ahead_update_other :
    ahead ⟨pool, Function.update s.mover t m⟩ (Function.update xs t ys) t.other =
      xs t.other ++ m.hand.toList ++ (ys ++ (s.mover t.other).hand.toList) := by
  simp only [ahead, Side.other_other, Function.update_self, Function.update_of_ne (Side.other_ne t)]

theorem ahead_update_target :
    ahead ⟨pool, Function.update s.mover t m⟩ (Function.update xs t.other ys) t =
      xs t ++ (s.mover t.other).hand.toList ++ (ys ++ m.hand.toList) := by
  simp only [ahead, Function.update_self, Function.update_of_ne (Side.other_ne t),
    Function.update_of_ne (Side.other_ne t).symm]

theorem ahead_update_target_other :
    ahead ⟨pool, Function.update s.mover t m⟩ (Function.update xs t.other ys) t.other =
      ys ++ m.hand.toList ++ (xs t ++ (s.mover t.other).hand.toList) := by
  simp only [ahead, Side.other_other, Function.update_self,
    Function.update_of_ne (Side.other_ne t), Function.update_of_ne (Side.other_ne t).symm]

end Ahead

variable [NeZero size] {base : List β} {lo : Side → ℕ} {k : Side → ℕ}

/-- The buffers are accounted for, and each thread has them before it in the order of the first
pool, from the number of its `Get`s on. The second thread is behind by what is between the two. -/
structure InTurn (base : List β) (s : State size Side Side β) (lo : Side → ℕ) (xs : Side → List β)
    (k : Side → ℕ) : Prop extends Circulates base.length s lo xs where
  order : ∀ t, ahead s xs t = base.rotate (k t)
  behind : k .a = k .b + (xs .b).length + (s.mover .a).load

theorem advance_of_taking (hm : (s.mover t).taking = true) :
    advance routes s t = ⟨Function.update s.pool t ((s.mover t).act (s.pool t)).1,
      Function.update s.mover t ((s.mover t).act (s.pool t)).2⟩ := by
  simp only [advance, touched, routes, id_eq, hm, if_true]

theorem advance_of_giving (hm : (s.mover t).taking = false) :
    advance routes s t = ⟨Function.update s.pool t.other ((s.mover t).act (s.pool t.other)).1,
      Function.update s.mover t ((s.mover t).act (s.pool t.other)).2⟩ := by
  simp only [advance, touched, routes, id_eq, hm, Bool.false_eq_true, if_false]

namespace InTurn

/-- A `Get` moves what it takes from the front of the thread's list to the end. -/
theorem take (hsize : size ∣ 2 ^ 32) (h : InTurn base s lo xs k) (hm : (s.mover t).taking = true) :
    ∃ lo' xs' n, InTurn base (advance routes s t) lo' xs' (Function.update k t (k t + n)) ∧
      (s.mover t).returns (s.pool t) = turns base (k t) n ∧
      none ∉ (s.mover t).returns (s.pool t) := by
  obtain ⟨hhand, hload, hput⟩ := Mover.hand_of_taking hm
  obtain ⟨bs, hxs, htracks, hfits, hreturns, hlen, hput'⟩ :=
    Mover.act_take_front hsize hm (h.tracks t) (h.fits t)
  rw [advance_of_taking hm]
  generalize ((s.mover t).act (s.pool t)).2 = m at *
  -- what leaves the pool is now in hand, which is the end of the list of `t`
  have hcount : (xs t).length = m.load + bs.length := by rw [hxs, List.length_append, hlen]
  have hself := h.order t
  have hother := h.order t.other
  rw [ahead, hxs, hhand, Option.toList_none, List.append_nil, List.append_assoc,
    List.append_assoc] at hself
  rw [ahead, Side.other_other, hxs, hhand, Option.toList_none, List.append_nil] at hother
  refine ⟨_, _, m.hand.toList.length,
    ⟨h.toCirculates.take htracks (hput'.trans hput.symm) hfits ?_ ?_, ?_, ?_⟩, ?_, ?_⟩
  · rw [hcount, Nat.add_assoc]
  · rw [hcount, hload]
    omega
  · intro u
    rcases Side.eq_or_eq_other t u with rfl | rfl
    · rw [ahead_update_self, Function.update_self, rotate_add_length hself.symm]
      simp only [List.append_assoc]
    · rw [ahead_update_other, Function.update_of_ne (Side.other_ne t), ← hother]
      simp only [List.append_assoc]
  · have hbehind := h.behind
    rw [hlen]
    cases t <;> simp [Function.update] at * <;> omega
  · rw [hreturns, turns_of_rotate hself.symm]
  · rw [hreturns, List.mem_map]
    rintro ⟨b, -, hb⟩
    cases hb

/-- A `Put` changes neither list. -/
theorem give (hsize : size ∣ 2 ^ 32) (hN : base.length ≤ size) (h : InTurn base s lo xs k)
    (hm : (s.mover t).taking = false) :
    ∃ lo' xs', InTurn base (advance routes s t) lo' xs' k := by
  have htarget := h.tracks t.other
  rw [Side.other_other] at htarget
  obtain ⟨ys, hhand, htracks, hfits, hload, hget⟩ :=
    Mover.act_give_back hsize hm htarget (h.fits t) (h.length_lt hN hm)
  rw [advance_of_giving hm]
  generalize ((s.mover t).act (s.pool t.other)).2 = m at *
  -- the hand and the end of the pool it gives to are next to each other in both lists
  have hself := h.order t
  have hother := h.order t.other
  rw [ahead, hhand] at hself
  rw [ahead, Side.other_other, hhand] at hother
  refine ⟨_, _, h.toCirculates.give htracks hget hfits hload, ?_, ?_⟩
  · intro u
    rcases Side.eq_or_eq_other t u with rfl | rfl
    · rw [ahead_update_target, ← hself]
      simp only [List.append_assoc]
    · rw [ahead_update_target_other, ← hother]
      simp only [List.append_assoc]
  · have hbehind := h.behind
    cases t <;> simp [Function.update, Side.other] at * <;> omega

/-- **The step lemma.** -/
theorem advance (hsize : size ∣ 2 ^ 32) (hN : base.length ≤ size) (h : InTurn base s lo xs k)
    (u : Side) :
    ∃ lo' xs' n, InTurn base (advance routes s u) lo' xs' (Function.update k u (k u + n)) ∧
      (s.mover u).returns (s.pool (touched routes s u)) = turns base (k u) n ∧
      none ∉ (s.mover u).returns (s.pool (touched routes s u)) := by
  cases hm : (s.mover u).taking with
  | true =>
    rw [touched, if_pos hm]
    exact h.take hsize hm
  | false =>
    obtain ⟨lo', xs', h'⟩ := h.give hsize hN hm
    rw [Mover.returns_of_not_taking hm]
    refine ⟨lo', xs', 0, ?_, rfl, List.not_mem_nil⟩
    rwa [Nat.add_zero, Function.update_eq_self]

/-- **The run lemma.** -/
theorem after (hsize : size ∣ 2 ^ 32) (hN : base.length ≤ size) (h : InTurn base s lo xs k)
    (as : List Side) :
    ∃ lo' xs' k', InTurn base (after routes s as) lo' xs' k' ∧
      ∀ t, ∃ n, k' t = k t + n ∧ returned routes t s as = turns base (k t) n ∧
        none ∉ returned routes t s as := by
  induction as generalizing s lo xs k with
  | nil => exact ⟨lo, xs, k, h, fun t ↦ ⟨0, rfl, rfl, List.not_mem_nil⟩⟩
  | cons u as ih =>
    obtain ⟨lo₁, xs₁, m, h₁, hreturns, hnull⟩ := h.advance hsize hN u
    obtain ⟨lo', xs', k', h', hrun⟩ := ih h₁
    refine ⟨lo', xs', k', h', fun t ↦ ?_⟩
    obtain ⟨n, hk, hreturned, hnull'⟩ := hrun t
    rw [returned]
    -- only the steps of `t` itself return anything to it
    by_cases hu : u = t
    · subst hu
      rw [Function.update_self] at hk hreturned
      refine ⟨m + n, by rw [hk, Nat.add_assoc], ?_, ?_⟩
      · rw [if_pos rfl, hreturns, hreturned, turns_add]
      · rw [if_pos rfl, List.mem_append, not_or]
        exact ⟨hnull, hnull'⟩
    · rw [Function.update_of_ne (Ne.symm hu)] at hk hreturned
      rw [if_neg hu, List.nil_append]
      exact ⟨n, hk, hreturned, hnull'⟩

end InTurn

theorem inTurn_start {a b : CircularBufferPool size β} {lo lo' : ℕ} (ha : a.Tracks lo base 0 0)
    (hb : b.Tracks lo' [] 0 0) :
    ∃ l x, InTurn base (start a b) l x fun _ ↦ 0 := by
  refine ⟨fun t ↦ if t = .a then lo else lo', fun t ↦ if t = .a then base else [],
    ⟨⟨?_, fun _ ↦ trivial, ?_⟩, ?_, rfl⟩⟩
  · rintro (_ | _)
    · exact ha
    · exact hb
  · rintro (_ | _) <;> simp [Side.other, start, Traffic.start, Mover.load]
  · rintro (_ | _) <;> simp [ahead, Side.other, start, Traffic.start, Mover.hand]

/-- **Each thread gets the buffers in turn.** Two threads feed each other from pools of which the
first holds `xs` and the second is empty, at any counter values. In every interleaving, what the
`i`-th `Get` of either thread returns is the buffer at `i` in `xs`, counted modulo the number of
buffers. The second thread is never ahead of the first, and behind it by no more `Get`s than there
are buffers. -/
theorem taken_in_turn {a b : CircularBufferPool bufferPoolSize β} {lo lo' : ℕ} {xs : List β}
    (ha : a.Tracks lo xs 0 0) (hb : b.Tracks lo' [] 0 0) (as : List Side) :
    (∀ t i r, (returned routes t (start a b) as)[i]? = some r →
      r ≠ none ∧ r = xs[i % xs.length]?) ∧
    (returned routes .b (start a b) as).length ≤ (returned routes .a (start a b) as).length ∧
    (returned routes .a (start a b) as).length ≤
      (returned routes .b (start a b) as).length + xs.length := by
  obtain ⟨l, x, hstart⟩ := inTurn_start ha hb
  obtain ⟨l', x', k, h, hrun⟩ := hstart.after (by decide) ha.window.length_le as
  have hlength (t : Side) : (returned routes t (start a b) as).length = k t := by
    obtain ⟨n, hk, hreturned, -⟩ := hrun t
    rw [hreturned, turns, List.length_map, List.length_range, hk, Nat.zero_add]
  have hcount := h.count .a
  have hbehind := h.behind
  rw [Side.other] at hcount
  refine ⟨fun t i r hr ↦ ?_, ?_, ?_⟩
  · obtain ⟨n, -, hreturned, hnull⟩ := hrun t
    refine ⟨fun hc ↦ hnull (List.mem_of_getElem? (hc ▸ hr)), ?_⟩
    rw [hreturned, turns, List.getElem?_map, Option.map_eq_some_iff] at hr
    obtain ⟨j, hj, rfl⟩ := hr
    obtain ⟨-, rfl⟩ := List.getElem?_eq_some_iff.mp hj
    rw [List.getElem_range, Nat.zero_add]
  · rw [hlength, hlength]
    omega
  · rw [hlength, hlength]
    omega

/-- The first thread passes both buffers on and the second gives one back. -/
def goingRound : List Side :=
  List.replicate 10 .a ++ List.replicate 5 .b ++ List.replicate 3 .a

theorem taken_in_turn_goingRound :
    (returned routes .a (start pair (.new _ ℕ)) goingRound)[2]? = some (some 1) ∧
      some 1 = [1, 2][2 % [1, 2].length]? ∧
      (returned routes .a (start pair (.new _ ℕ)) goingRound).length ≤
        (returned routes .b (start pair (.new _ ℕ)) goingRound).length + [1, 2].length := by
  have hpair : pair.Tracks 0 [1, 2] 0 0 :=
    (CircularBufferPool.tracks_new.put (by decide) (by decide) 1).put (by decide) (by decide) 2
  have hthird : (returned routes .a (start pair (.new _ ℕ)) goingRound)[2]? = some (some 1) := by
    decide +kernel
  have h := taken_in_turn hpair CircularBufferPool.tracks_new goingRound
  exact ⟨hthird, (h.1 .a 2 (some 1) hthird).2, h.2.2⟩

end Circulation

end FulgurLogging
