import FulgurLogging.BufferPool.Circulation
import FulgurLogging.BufferPool.Destruction

/-!
# The speed tests

`MoveTest` fills a pool, moves all buffers to a second one and back, and deletes both pools.
`NewTest` fills a pool and deletes it. Neither deletes a buffer by itself, so it is for the pools
to delete each of them once. The destructor leaks what it releases, and does not do so here only
because the pool is full: the two indices coincide, wherever the moves have left them.
-/

namespace FulgurLogging

open Ring Circulation

namespace SpeedTest

variable {size : ℕ} [NeZero size] {β : Type*}

/-- The loop of both tests that puts new buffers. -/
def fill (pool : CircularBufferPool size β) (buffers : List β) : CircularBufferPool size β :=
  buffers.foldl (fun pool buffer ↦ (pool.put (some buffer)).2) pool

/-- The two loops of `MoveTest`, one after the other, any number of times. -/
def moveRounds (a b : CircularBufferPool size β) :
    ℕ → Option (CircularBufferPool size β × CircularBufferPool size β)
  | 0 => some (a, b)
  | rounds + 1 =>
    (moveRounds a b rounds).bind fun p ↦
      (moveAll size p.1 p.2).bind fun q ↦
        (moveAll size q.2 q.1).map Prod.swap

/-- What `delete a` and `delete b` delete after so many rounds. -/
def moveTest (size : ℕ) [NeZero size] (buffers : List β) (rounds : ℕ) :
    Option (List β × List β) :=
  (moveRounds (fill (.new size β) buffers) (.new size β) rounds).map fun p ↦
    (p.1.destroy, p.2.destroy)

/-- What `delete a` deletes at the end of `NewTest`. -/
def newTest (size : ℕ) [NeZero size] (buffers : List β) : List β :=
  (fill (.new size β) buffers).destroy

theorem fill_tracks (hsize : size ∣ 2 ^ 32) (buffers : List β) {pool : CircularBufferPool size β}
    {lo : ℕ} {xs : List β} (h : pool.Tracks lo xs 0 0) (hroom : xs.length + buffers.length ≤ size) :
    (fill pool buffers).Tracks lo (xs ++ buffers) 0 0 := by
  induction buffers generalizing pool xs with
  | nil => rwa [List.append_nil]
  | cons buffer buffers ih =>
    rw [List.length_cons] at hroom
    rw [List.append_cons]
    refine ih (h.put hsize (by omega) buffer) ?_
    rw [List.length_append, List.length_singleton]
    omega

/-- A round puts everything back where it was in the order, and moves on both counters. -/
theorem moveRounds_tracks (hsize : size ∣ 2 ^ 32) {a b : CircularBufferPool size β} {lo lo' : ℕ}
    {xs : List β} (hxs : xs.length = size) (ha : a.Tracks lo xs 0 0) (hb : b.Tracks lo' [] 0 0)
    (rounds : ℕ) :
    ∃ a' b', moveRounds a b rounds = some (a', b') ∧ a'.Tracks (lo + rounds * size) xs 0 0 ∧
      b'.Tracks (lo' + rounds * size) [] 0 0 := by
  induction rounds with
  | zero =>
    refine ⟨a, b, rfl, ?_, ?_⟩
    · rwa [Nat.zero_mul]
    · rwa [Nat.zero_mul]
  | succ rounds ih =>
    obtain ⟨a₁, b₁, hrounds, ha₁, hb₁⟩ := ih
    have hroom : ([] : List β).length + xs.length ≤ size := by
      rw [List.length_nil, hxs, Nat.zero_add]
    rw [← List.append_nil xs] at ha₁
    obtain ⟨a₂, b₂, hab, ha₂, hb₂⟩ := moveAll_tracks hsize ha₁ hb₁ hroom
    rw [List.nil_append, ← List.append_nil xs] at hb₂
    obtain ⟨b₃, a₃, hba, hb₃, ha₃⟩ := moveAll_tracks hsize hb₂ ha₂ hroom
    rw [hxs] at hab hba ha₃ hb₃
    refine ⟨a₃, b₃, ?_, ?_, ?_⟩
    · rw [moveRounds, hrounds, Option.bind_some, hab, Option.bind_some, hba]
      rfl
    · rwa [Nat.add_one_mul, ← Nat.add_assoc]
    · rwa [Nat.add_one_mul, ← Nat.add_assoc]

/-- **Every buffer of the tests is deleted once.** After any number of rounds the first pool
deletes the buffers it was filled with, each once, and the second deletes none. -/
theorem buffers_deleted_once {buffers : List β} (hfull : buffers.length = bufferPoolSize)
    (rounds : ℕ) :
    (∃ deleted, moveTest bufferPoolSize buffers rounds = some (deleted, []) ∧
      deleted.Perm buffers) ∧
    (newTest bufferPoolSize buffers).Perm buffers := by
  have hsize : bufferPoolSize ∣ 2 ^ 32 := by decide
  have hfill := fill_tracks hsize buffers CircularBufferPool.tracks_new
    (by rw [List.length_nil, hfull, Nat.zero_add])
  rw [List.nil_append] at hfill
  refine ⟨?_, hfill.destroy_perm hsize (by rw [hfull, Nat.add_mod_right])⟩
  obtain ⟨a, b, hrounds, ha, hb⟩ :=
    moveRounds_tracks hsize hfull hfill CircularBufferPool.tracks_new rounds
  refine ⟨a.destroy, ?_, ha.destroy_perm hsize (by rw [hfull, Nat.add_mod_right])⟩
  rw [moveTest, hrounds, Option.map_some, (hb.destroy_perm hsize le_rfl).eq_nil]

theorem buffers_deleted_once_range :
    (∃ deleted, moveTest bufferPoolSize (List.range bufferPoolSize) 1 = some (deleted, []) ∧
      deleted.Perm (List.range bufferPoolSize)) ∧
    (newTest bufferPoolSize (List.range bufferPoolSize)).Perm (List.range bufferPoolSize) :=
  buffers_deleted_once List.length_range 1

end SpeedTest

end FulgurLogging
