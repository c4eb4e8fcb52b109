import FulgurLogging.Lib.Window
import Mathlib.Data.Nat.Prime.Basic
import Mathlib.Data.Nat.PrimeFin

/-!
# The circular buffer pool

`CircularBufferPool` is an array of `unique_ptr` slots with two free-running 32-bit counters. `Put`
draws a ticket from `head_` and stores into the slot it falls on, `Get` draws a ticket from
`tail_`, spins until the slot it falls on is non-null, and moves the buffer out. Neither operation
looks at the other counter, so there is no test for a full pool, and storing over a slot in use
destroys the buffer it owned.

## Representation

The number of slots is a parameter. The index macro masks a counter with `size - 1`, which is below
`size` for every positive `size`, so an index is a `Fin size` by construction and no access leaves
the array. That the masked counter is the ticket modulo `size` needs `size` to divide `2 ^ 32`, and
is the one fact that ties the counters to unbounded positions.

A `unique_ptr<LogBuffer>` is an `Option β`. The pool never looks inside a buffer, so the type `β`
is arbitrary and stands for the identity of a buffer.

Every member function is split at its accesses to shared memory. The functions as a whole are
compositions of these steps, and the interleaved models take the steps one at a time.
-/

namespace FulgurLogging

open Ring

/-- `BUFFER_POOL_SIZE`, the text `1024 * 8`. -/
abbrev bufferPoolSize : ℕ := 1024 * 8

instance : NeZero bufferPoolSize := ⟨by decide⟩

/-- `GET_BUFFER_POOL_INDEX(a)`, the text `(a & (BUFFER_POOL_SIZE - 1))`. -/
def getBufferPoolIndex (size : ℕ) [NeZero size] (a : UInt32) : Fin size :=
  ⟨(a &&& UInt32.ofNat (size - 1)).toNat, by
    have hpos : 0 < size := Nat.pos_of_neZero size
    have hmask : (UInt32.ofNat (size - 1)).toNat ≤ size - 1 := by
      rw [UInt32.toNat_ofNat']
      exact Nat.mod_le _ _
    rw [UInt32.toNat_and]
    exact (Nat.and_le_right.trans hmask).trans_lt (by omega)⟩

/-- The pool: its slots and its two ticket counters. -/
structure CircularBufferPool (size : ℕ) (β : Type*) where
  /-- `buffers_`, each slot owning a buffer or null. -/
  buffers : Fin size → Option β
  /-- `head_`, the next ticket of `Put`. -/
  head : UInt32
  /-- `tail_`, the next ticket of `Get`. -/
  tail : UInt32

namespace CircularBufferPool

variable {size : ℕ} {β : Type*}

/-- The constructor: both counters zero and every slot null. -/
def new (size : ℕ) (β : Type*) : CircularBufferPool size β := ⟨fun _ ↦ none, 0, 0⟩

/-! ## The accesses to shared memory -/

/-- `current_idx = GET_BUFFER_POOL_INDEX(head_.fetch_add(1))`. -/
def headFetchAdd [NeZero size] (pool : CircularBufferPool size β) :
    Fin size × CircularBufferPool size β :=
  (getBufferPoolIndex size pool.head, { pool with head := pool.head + 1 })

/-- `current_idx = GET_BUFFER_POOL_INDEX(tail_.fetch_add(1))`. -/
def tailFetchAdd [NeZero size] (pool : CircularBufferPool size β) :
    Fin size × CircularBufferPool size β :=
  (getBufferPoolIndex size pool.tail, { pool with tail := pool.tail + 1 })

/-- `buffers_[current_idx] = std::move(buffer)`, which deletes what the slot owned. -/
def store (pool : CircularBufferPool size β) (idx : Fin size) (buffer : Option β) :
    CircularBufferPool size β :=
  { pool with buffers := Function.update pool.buffers idx buffer }

/-- `if (buffers_[current_idx])`. -/
def holdsBuffer (pool : CircularBufferPool size β) (idx : Fin size) : Bool :=
  (pool.buffers idx).isSome

/-- `buff = std::move(buffers_[current_idx])`, which leaves the slot null. -/
def moveOut (pool : CircularBufferPool size β) (idx : Fin size) :
    Option β × CircularBufferPool size β :=
  (pool.buffers idx, pool.store idx none)

/-! ## The member functions as a whole -/

/-- `Put`, run without interruption. -/
def put [NeZero size] (pool : CircularBufferPool size β) (buffer : Option β) :
    Bool × CircularBufferPool size β :=
  (true, pool.headFetchAdd.2.store pool.headFetchAdd.1 buffer)

/-- `Get`, run without interruption; `none` when its loop spins, since nothing else fills the
slot. -/
def get [NeZero size] (pool : CircularBufferPool size β) :
    Option (Option β × CircularBufferPool size β) :=
  if pool.tailFetchAdd.2.holdsBuffer pool.tailFetchAdd.1 then
    some (pool.tailFetchAdd.2.moveOut pool.tailFetchAdd.1)
  else none

@[simp] theorem tailFetchAdd_buffers [NeZero size] (pool : CircularBufferPool size β) :
    pool.tailFetchAdd.2.buffers = pool.buffers := rfl

@[simp] theorem store_buffers (pool : CircularBufferPool size β) (idx : Fin size)
    (buffer : Option β) :
    (pool.store idx buffer).buffers = Function.update pool.buffers idx buffer := rfl

@[simp] theorem moveOut_fst (pool : CircularBufferPool size β) (idx : Fin size) :
    (pool.moveOut idx).1 = pool.buffers idx := rfl

@[simp] theorem moveOut_snd (pool : CircularBufferPool size β) (idx : Fin size) :
    (pool.moveOut idx).2 = pool.store idx none := rfl

/-! ## Tickets and slots -/

/-- The index macro takes a ticket to its position on the ring, across every wrap of the counter.
-/
theorem getBufferPoolIndex_ofNat [NeZero size] (hsize : size ∣ 2 ^ 32) (n : ℕ) :
    getBufferPoolIndex size (UInt32.ofNat n) = slot size n := by
  obtain ⟨k, -, rfl⟩ := (Nat.dvd_prime_pow Nat.prime_two).mp hsize
  have hle : 2 ^ k ≤ 2 ^ 32 := Nat.le_of_dvd (by decide) hsize
  have hmask : (2 ^ k - 1) % 2 ^ 32 = 2 ^ k - 1 :=
    Nat.mod_eq_of_lt (by have := Nat.two_pow_pos k; omega)
  refine Fin.ext ?_
  rw [getBufferPoolIndex, val_slot]
  change (UInt32.ofNat n &&& UInt32.ofNat (2 ^ k - 1)).toNat = n % 2 ^ k
  rw [UInt32.toNat_and, UInt32.toNat_ofNat', UInt32.toNat_ofNat', hmask,
    Nat.and_two_pow_sub_one_eq_mod, Nat.mod_mod_of_dvd _ hsize]

/-- The masked counter as a number, as `GetSize` uses it. -/
theorem ofNat_and_mask [NeZero size] (hsize : size ∣ 2 ^ 32) (n : ℕ) :
    UInt32.ofNat n &&& UInt32.ofNat (size - 1) = UInt32.ofNat (n % size) := by
  refine UInt32.toNat.inj ?_
  have hidx : (getBufferPoolIndex size (UInt32.ofNat n)).val = n % size := by
    rw [getBufferPoolIndex_ofNat hsize, val_slot]
  have hlt : n % size < 2 ^ 32 :=
    (Nat.mod_lt n (Nat.pos_of_neZero size)).trans_le (Nat.le_of_dvd (by decide) hsize)
  rw [UInt32.toNat_ofNat_of_lt' hlt]
  exact hidx

/-- The difference of two indices, narrowed to `int`, is their difference as integers. -/
theorem toInt_sub_index {a b : ℕ} (ha : a < 2 ^ 31) (hb : b < 2 ^ 31) :
    (UInt32.ofNat a - UInt32.ofNat b).toInt32.toInt = (a : ℤ) - b := by
  rw [UInt32.toInt32_sub, Int32.toInt_sub, UInt32.toInt32_ofNat', UInt32.toInt32_ofNat',
    Int32.toInt_ofNat_of_lt ha, Int32.toInt_ofNat_of_lt hb, Int.bmod_eq_of_le (by omega) (by omega)]

/-- The pool holds `xs` from position `lo` on, with `puts` tickets of `Put` and `gets` tickets of
`Get` drawn but not yet used. -/
structure Tracks [NeZero size] (pool : CircularBufferPool size β) (lo : ℕ) (xs : List β)
    (puts gets : ℕ) : Prop where
  /-- The slots. -/
  window : Holds pool.buffers lo xs
  /-- The counter of `Put`. -/
  head : pool.head = UInt32.ofNat (lo + xs.length + puts)
  /-- The counter of `Get`. -/
  tail : pool.tail = UInt32.ofNat (lo + gets)

theorem tracks_new [NeZero size] : (new size β).Tracks 0 [] 0 0 :=
  ⟨Holds.nil (fun _ ↦ rfl) 0, rfl, rfl⟩

namespace Tracks

variable [NeZero size] {pool : CircularBufferPool size β} {lo : ℕ} {xs : List β} {puts gets : ℕ}

theorem headFetchAdd (h : pool.Tracks lo xs puts gets) :
    pool.headFetchAdd.2.Tracks lo xs (puts + 1) gets := by
  refine ⟨h.window, ?_, h.tail⟩
  change pool.head + 1 = _
  rw [h.head, ← Nat.add_assoc, UInt32.ofNat_add _ 1]
  rfl

theorem headFetchAdd_fst (hsize : size ∣ 2 ^ 32) (h : pool.Tracks lo xs puts gets) :
    pool.headFetchAdd.1 = slot size (lo + xs.length + puts) := by
  rw [CircularBufferPool.headFetchAdd, h.head, getBufferPoolIndex_ofNat hsize]

theorem tailFetchAdd (h : pool.Tracks lo xs puts gets) :
    pool.tailFetchAdd.2.Tracks lo xs puts (gets + 1) := by
  refine ⟨h.window, h.head, ?_⟩
  change pool.tail + 1 = _
  rw [h.tail, ← Nat.add_assoc, UInt32.ofNat_add _ 1]
  rfl

theorem tailFetchAdd_fst (hsize : size ∣ 2 ^ 32) (h : pool.Tracks lo xs puts gets) :
    pool.tailFetchAdd.1 = slot size (lo + gets) := by
  rw [CircularBufferPool.tailFetchAdd, h.tail, getBufferPoolIndex_ofNat hsize]

/-- Storing at the oldest unused ticket of `Put` appends to the window. -/
theorem store (h : pool.Tracks lo xs (puts + 1) gets) (hlt : xs.length < size) (b : β) :
    (pool.store (slot size (lo + xs.length)) (some b)).Tracks lo (xs ++ [b]) puts gets := by
  refine ⟨h.window.push hlt b, ?_, h.tail⟩
  rw [CircularBufferPool.store, h.head, List.length_append, List.length_singleton]
  congr 1
  omega

/-- Moving out at the oldest unused ticket of `Get` takes the front of the window. -/
theorem moveOut {b : β} (h : pool.Tracks lo (b :: xs) puts (gets + 1)) :
    (pool.moveOut (slot size lo)).1 = some b ∧
      (pool.moveOut (slot size lo)).2.Tracks (lo + 1) xs puts gets := by
  refine ⟨by rw [moveOut_fst, h.window.front, List.head?_cons], h.window.pop, ?_, ?_⟩
  · rw [moveOut_snd, CircularBufferPool.store, h.head, List.length_cons]
    congr 1
    omega
  · rw [moveOut_snd, CircularBufferPool.store, h.tail]
    congr 1
    omega

theorem holdsBuffer_front (h : pool.Tracks lo xs puts gets) :
    pool.holdsBuffer (slot size lo) = !xs.isEmpty := by
  rw [holdsBuffer, h.window.front]
  cases xs <;> rfl

/-! ## Uninterrupted calls -/

/-- With room left, `Put` appends. -/
theorem put (hsize : size ∣ 2 ^ 32) (h : pool.Tracks lo xs 0 0) (hlt : xs.length < size) (b : β) :
    (pool.put (some b)).2.Tracks lo (xs ++ [b]) 0 0 := by
  rw [CircularBufferPool.put, h.headFetchAdd_fst hsize, Nat.add_zero]
  exact h.headFetchAdd.store hlt b

/-- `Get` on a pool with a buffer in it returns the oldest one. -/
theorem get {b : β} (hsize : size ∣ 2 ^ 32) (h : pool.Tracks lo (b :: xs) 0 0) :
    ∃ pool', pool.get = some (some b, pool') ∧ pool'.Tracks (lo + 1) xs 0 0 := by
  have hidx : pool.tailFetchAdd.1 = slot size lo := h.tailFetchAdd_fst hsize
  obtain ⟨hfst, hsnd⟩ := h.tailFetchAdd.moveOut
  refine ⟨_, ?_, hsnd⟩
  rw [CircularBufferPool.get, hidx, if_pos (by rw [h.tailFetchAdd.holdsBuffer_front]; rfl), ← hfst]

/-- `Get` on an empty pool spins. -/
theorem get_nil (h : pool.Tracks lo [] puts gets) : pool.get = none := by
  rw [CircularBufferPool.get, if_neg]
  rw [holdsBuffer, tailFetchAdd_buffers, h.window.eq_none]
  exact Bool.false_ne_true

end Tracks

end CircularBufferPool

end FulgurLogging
