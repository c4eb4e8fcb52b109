import FulgurLogging.BufferPool.Circular

/-!
# A thread that passes buffers on

The loop `target.Put(source.Get())` as a thread: `Get` on one pool, then `Put` of what it returned
on another, or on the same one. Each of its five program points makes one access to shared memory,
to a pool that `taking` names, and `act` is that access.
-/

namespace FulgurLogging

open Ring

/-- Where a thread repeating `target.Put(source.Get())` stands. -/
inductive Mover (size : ℕ) (β : Type*)
  /-- About to draw a ticket of `Get`. -/
  | idle
  /-- In the loop of `Get`, about to test the slot. -/
  | testing (idx : Fin size)
  /-- Past the loop of `Get`, about to move the buffer out. -/
  | moving (idx : Fin size)
  /-- `Get` has returned; about to draw a ticket of `Put`. -/
  | holding (buffer : Option β)
  /-- In `Put`, about to store. -/
  | storing (idx : Fin size) (buffer : Option β)

namespace Mover

variable {size : ℕ} [NeZero size] {β : Type*}

/-- Whether the next access is one of `Get`, to the source. -/
def taking : Mover size β → Bool
  | idle | testing _ | moving _ => true
  | holding _ | storing .. => false

/-- The next access, on the pool it goes to. -/
def act (pool : CircularBufferPool size β) : Mover size β → CircularBufferPool size β × Mover size β
  | idle => (pool.tailFetchAdd.2, testing pool.tailFetchAdd.1)
  | testing idx => (pool, if pool.holdsBuffer idx then moving idx else testing idx)
  | moving idx => ((pool.moveOut idx).2, holding (pool.moveOut idx).1)
  | holding buffer => (pool.headFetchAdd.2, storing pool.headFetchAdd.1 buffer)
  | storing idx buffer => (pool.store idx buffer, idle)

/-- The buffer in the thread's hand, between its `Get` and its store. -/
def hand : Mover size β → Option β
  | idle | testing _ | moving _ => none
  | holding buffer | storing _ buffer => buffer

/-- The tickets of `Get` drawn and not used. -/
def getTickets : Mover size β → ℕ
  | testing _ | moving _ => 1
  | _ => 0

/-- The tickets of `Put` drawn and not used. -/
def putTickets : Mover size β → ℕ
  | storing .. => 1
  | _ => 0

/-- The number of buffers in hand. -/
def load : Mover size β → ℕ
  | holding _ | storing .. => 1
  | _ => 0

/-! ## One access at a time

What a thread carries is read against the window it works on. The pool it takes from holds `xs`
from `lo` on, and the next free position of the pool it puts to is `free`. -/

/-- The indices the thread carries are the positions it is entitled to, and the buffer in its hand
is not null. -/
def Fits (lo : ℕ) (xs : List β) (free : ℕ) : Mover size β → Prop
  | idle => True
  | testing idx => idx = slot size lo
  | moving idx => idx = slot size lo ∧ xs ≠ []
  | holding buffer => buffer ≠ none
  | storing idx buffer => idx = slot size free ∧ buffer ≠ none

variable {pool : CircularBufferPool size β} {m : Mover size β} {lo free : ℕ} {xs : List β}

/-- More buffers behind the window change nothing for a thread that takes from it. -/
theorem Fits.append (h : m.Fits lo xs free) (ys : List β) : m.Fits lo (xs ++ ys) free := by
  cases m with
  | moving idx => exact ⟨h.1, List.append_ne_nil_of_left_ne_nil h.2 ys⟩
  | _ => exact h

/-- **An access of `Get`** leaves the end of the source's window where it is, and takes at most the
front buffer, into the thread's hand. -/
theorem act_take {puts : ℕ} (hsize : size ∣ 2 ^ 32) (hm : m.taking = true)
    (htracks : pool.Tracks lo xs puts m.getTickets) (hfits : m.Fits lo xs free) :
    ∃ lo' xs', (m.act pool).1.Tracks lo' xs' puts (m.act pool).2.getTickets ∧
      (m.act pool).2.Fits lo' xs' free ∧ lo' + xs'.length = lo + xs.length ∧
      xs'.length + (m.act pool).2.load = xs.length + m.load ∧
      (m.act pool).2.putTickets = m.putTickets := by
  cases m with
  | idle =>
    exact ⟨lo, xs, htracks.tailFetchAdd, htracks.tailFetchAdd_fst hsize, rfl, rfl, rfl⟩
  | testing idx =>
    obtain rfl : idx = slot size lo := hfits
    have hfull := htracks.holdsBuffer_front
    rw [act]
    split
    next h =>
      rw [hfull] at h
      exact ⟨lo, xs, htracks, ⟨rfl, by simpa using h⟩, rfl, rfl, rfl⟩
    next => exact ⟨lo, xs, htracks, rfl, rfl, rfl, rfl⟩
  | moving idx =>
    obtain ⟨rfl, hne⟩ := hfits
    obtain ⟨b, bs, rfl⟩ := List.exists_cons_of_ne_nil hne
    obtain ⟨hfst, hsnd⟩ := htracks.moveOut
    refine ⟨lo + 1, bs, hsnd, ?_, ?_, rfl, rfl⟩
    · rw [act, hfst]
      exact Option.some_ne_none b
    · rw [List.length_cons]
      omega
  | holding => cases hm
  | storing => cases hm

/-- **An access of `Put`** adds at most the buffer in hand, at the end of the target's window. -/
theorem act_give {gets lo' : ℕ} {xs' : List β} (hsize : size ∣ 2 ^ 32) (hm : m.taking = false)
    (htracks : pool.Tracks lo xs m.putTickets gets) (hfits : m.Fits lo' xs' (lo + xs.length))
    (hroom : xs.length < size) :
    ∃ ys, (m.act pool).1.Tracks lo (xs ++ ys) (m.act pool).2.putTickets gets ∧
      (m.act pool).2.Fits lo' xs' (lo + (xs ++ ys).length) ∧
      ys.length + (m.act pool).2.load = m.load ∧
      (m.act pool).2.getTickets = m.getTickets := by
  cases m with
  | idle => cases hm
  | testing => cases hm
  | moving => cases hm
  | holding buffer =>
    refine ⟨[], ?_, ?_, rfl, rfl⟩
    · rw [List.append_nil]
      exact htracks.headFetchAdd
    · rw [List.append_nil]
      exact ⟨htracks.headFetchAdd_fst hsize, hfits⟩
  | storing idx buffer =>
    obtain ⟨rfl, hne⟩ := hfits
    obtain ⟨b, rfl⟩ := Option.ne_none_iff_exists'.mp hne
    exact ⟨[b], htracks.store hroom b, trivial, rfl, rfl⟩

/-- Only the move out of a slot and the store into one touch the slots or the hand. -/
theorem act_quiet (pool : CircularBufferPool size β) (hmove : ∀ idx, m ≠ moving idx)
    (hstore : ∀ idx buffer, m ≠ storing idx buffer) :
    (m.act pool).1.buffers = pool.buffers ∧ (m.act pool).2.hand = m.hand := by
  cases m with
  | idle => exact ⟨rfl, rfl⟩
  | testing idx =>
    rw [act]
    split <;> exact ⟨rfl, rfl⟩
  | moving idx => exact absurd rfl (hmove idx)
  | holding buffer => exact ⟨rfl, rfl⟩
  | storing idx buffer => exact absurd rfl (hstore idx buffer)

end Mover

end FulgurLogging
