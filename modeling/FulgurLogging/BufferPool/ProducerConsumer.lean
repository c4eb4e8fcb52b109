import FulgurLogging.BufferPool.Circular
import FulgurLogging.Lib.Machine

/-!
# One producer and one consumer

A thread calling `Put` and a thread calling `Get` share one pool. Each access to shared memory is a
step of its own, so between its `fetch_add` and its slot access a thread holds a ticket that the
slots do not show yet: `head_` counts a buffer that is not stored, or `tail_` runs ahead of `head_`
while the consumer spins.

`Put` assumes that there is enough place. The assumption is a guard on starting a `Put`, read off
the calls alone: fewer than `size` `Put`s have been started beyond the `Get`s completed.

## Refinement

The pool refines the bounded queue of the same size. `Put` takes effect when it stores and `Get`
when it moves the buffer out, and every other step is answered by none. `Refines` relates a state
to the queue and its output log, and carries the whole invariant: the slots hold exactly the queue
from the position the consumer has reached, and both threads' tickets are the positions at its two
ends.
-/

namespace FulgurLogging

open Ring Transition

namespace ProducerConsumer

/-- Where the producer stands. -/
inductive Producer (size : ℕ) (β : Type*)
  /-- Between two calls of `Put`. -/
  | idle
  /-- Before the store, with its index drawn. -/
  | storing (idx : Fin size) (buffer : β)

/-- Where the consumer stands. -/
inductive Consumer (size : ℕ)
  /-- Between two calls of `Get`. -/
  | idle
  /-- In the loop, about to test the slot. -/
  | testing (idx : Fin size)
  /-- Past the loop, about to move the buffer out. -/
  | moving (idx : Fin size)

/-- The pool, the two program points, and what was handed over in each direction. -/
structure State (size : ℕ) (β : Type*) where
  pool : CircularBufferPool size β
  producer : Producer size β
  consumer : Consumer size
  /-- The buffers of the `Put`s started, the oldest first. -/
  put : List β
  /-- The results of the `Get`s completed, the oldest first. -/
  returned : List (Option β)

inductive Action (β : Type*)
  | startPut (b : β)
  | store
  | startGet
  | test
  | move

variable {size : ℕ} [NeZero size] {β : Type*}

def init (size : ℕ) (β : Type*) : State size β :=
  ⟨.new size β, .idle, .idle, [], []⟩

def step (s : State size β) : Action β → Option (State size β)
  | .startPut b =>
    match s.producer with
    | .idle =>
      -- the place `Put` assumes, as far as the calls show it
      if s.put.length < s.returned.length + size then
        some { s with
          pool := s.pool.headFetchAdd.2
          producer := .storing s.pool.headFetchAdd.1 b
          put := s.put ++ [b] }
      else none
    | .storing .. => none
  | .store =>
    match s.producer with
    | .idle => none
    | .storing idx b => some { s with pool := s.pool.store idx (some b), producer := .idle }
  | .startGet =>
    match s.consumer with
    | .idle =>
      some { s with pool := s.pool.tailFetchAdd.2, consumer := .testing s.pool.tailFetchAdd.1 }
    | _ => none
  | .test =>
    match s.consumer with
    | .testing idx =>
      -- on a null slot `_mm_pause()`, and around the loop again
      some (if s.pool.holdsBuffer idx then { s with consumer := .moving idx } else s)
    | _ => none
  | .move =>
    match s.consumer with
    | .moving idx =>
      some { s with
        pool := (s.pool.moveOut idx).2
        consumer := .idle
        returned := s.returned ++ [(s.pool.moveOut idx).1] }
    | _ => none

def machine (size : ℕ) [NeZero size] (β : Type*) : Machine (State size β) (Action β) := ⟨step⟩

/-! ## The queue behind the pool -/

/-- The tickets of `Put` drawn and not used. -/
def Producer.tickets : Producer size β → ℕ
  | .idle => 0
  | .storing .. => 1

/-- The buffers handed to a `Put` that has not stored. -/
def Producer.inHand : Producer size β → List β
  | .idle => []
  | .storing _ b => [b]

/-- The tickets of `Get` drawn and not used. -/
def Consumer.tickets : Consumer size → ℕ
  | .idle => 0
  | _ => 1

/-- The pool's state against a queue and the log of what it handed out. -/
structure Refines (s : State size β) (t : BoundedQueue size β × List β) : Prop where
  tracks : s.pool.Tracks t.2.length t.1.items s.producer.tickets s.consumer.tickets
  returned : s.returned = t.2.map some
  put : s.put = t.2 ++ t.1.items ++ s.producer.inHand
  storing : ∀ idx b, s.producer = .storing idx b →
    idx = slot size (t.2.length + t.1.items.length) ∧ t.1.items.length < size
  testing : ∀ idx, s.consumer = .testing idx → idx = slot size t.2.length
  moving : ∀ idx, s.consumer = .moving idx → idx = slot size t.2.length ∧ t.1.items ≠ []

/-- The queue's answer to a step of the pool: `Put` takes effect at its store, `Get` at its move.
-/
def answer (s : State size β) : Action β → List (BoundedQueue.Action β)
  | .store =>
    match s.producer with
    | .idle => []
    | .storing _ b => [.enqueue b]
  | .move => [.dequeue]
  | _ => []

theorem refines_init : Refines (init size β) (BoundedQueue.empty size β, []) :=
  ⟨CircularBufferPool.tracks_new, rfl, rfl, nofun, nofun, nofun⟩

section Step

variable {s s' : State size β} {t : BoundedQueue size β × List β}

theorem refines_startPut (hsize : size ∣ 2 ^ 32) {b : β} (hR : Refines s t)
    (h : step s (.startPut b) = some s') : Refines s' t := by
  cases hp : s.producer with
  | storing => simp only [step, hp, reduceCtorEq] at h
  | idle =>
    simp only [step, hp] at h
    split at h
    next hroom =>
      cases h
      have htracks := hR.tracks
      have hput := hR.put
      rw [hp] at htracks hput
      rw [hput, hR.returned] at hroom
      simp only [Producer.inHand, List.append_nil, List.length_append, List.length_map] at hroom
      refine ⟨htracks.headFetchAdd, hR.returned, ?_, ?_, hR.testing, hR.moving⟩
      · rw [hput, Producer.inHand, List.append_nil]
        rfl
      · intro idx c hc
        cases hc
        exact ⟨htracks.headFetchAdd_fst hsize, by omega⟩
    next => cases h

theorem refines_store {b : β} {idx : Fin size} (hR : Refines s t)
    (hp : s.producer = .storing idx b) :
    ∃ q, t.1.enqueue b = some q ∧
      Refines { s with pool := s.pool.store idx (some b), producer := .idle } (q, t.2) := by
  obtain ⟨rfl, hlt⟩ := hR.storing idx b hp
  have htracks := hR.tracks
  have hput := hR.put
  rw [hp] at htracks hput
  refine ⟨_, BoundedQueue.enqueue_of_lt hlt b, htracks.store hlt b, hR.returned, ?_, nofun,
    hR.testing, fun idx hc ↦ ⟨(hR.moving idx hc).1, List.append_ne_nil_of_right_ne_nil _ (by simp)⟩⟩
  rw [hput, Producer.inHand, Producer.inHand, List.append_nil, List.append_assoc]

theorem refines_startGet (hsize : size ∣ 2 ^ 32) (hR : Refines s t)
    (h : step s .startGet = some s') : Refines s' t := by
  cases hc : s.consumer with
  | testing => simp only [step, hc, reduceCtorEq] at h
  | moving => simp only [step, hc, reduceCtorEq] at h
  | idle =>
    simp only [step, hc, Option.some_inj] at h
    subst h
    have htracks := hR.tracks
    rw [hc] at htracks
    refine ⟨htracks.tailFetchAdd, hR.returned, hR.put, hR.storing, ?_, nofun⟩
    intro idx hidx
    cases hidx
    exact htracks.tailFetchAdd_fst hsize

theorem refines_test (hR : Refines s t) (h : step s .test = some s') : Refines s' t := by
  cases hc : s.consumer with
  | idle => simp only [step, hc, reduceCtorEq] at h
  | moving => simp only [step, hc, reduceCtorEq] at h
  | testing idx =>
    simp only [step, hc, Option.some_inj] at h
    subst h
    split
    next hfull =>
      have htracks := hR.tracks
      rw [hc] at htracks
      have hidx := hR.testing idx hc
      refine ⟨htracks, hR.returned, hR.put, hR.storing, nofun, ?_⟩
      intro i hi
      cases hi
      rw [hidx, htracks.holdsBuffer_front] at hfull
      exact ⟨hidx, by simpa using hfull⟩
    next => exact hR

theorem refines_move {idx : Fin size} (hR : Refines s t) (hc : s.consumer = .moving idx) :
    ∃ b q, t.1.dequeue = some (b, q) ∧
      Refines { s with
        pool := (s.pool.moveOut idx).2
        consumer := .idle
        returned := s.returned ++ [(s.pool.moveOut idx).1] } (q, t.2 ++ [b]) := by
  obtain ⟨⟨items, hle⟩, out⟩ := t
  obtain ⟨rfl, hne⟩ := hR.moving idx hc
  have htracks := hR.tracks
  rw [hc] at htracks
  cases items with
  | nil => exact absurd rfl hne
  | cons b bs =>
    obtain ⟨hfst, hsnd⟩ := htracks.moveOut
    have hlen : (out ++ [b]).length = out.length + 1 := by simp
    refine ⟨b, _, BoundedQueue.dequeue_cons hle, by rw [hlen]; exact hsnd, ?_, ?_, ?_, nofun,
      nofun⟩
    · rw [hR.returned, hfst, List.map_append]
      rfl
    · rw [hR.put, List.append_assoc out [b], List.singleton_append]
    · intro i c hi
      obtain ⟨rfl, hlt⟩ := hR.storing i c hi
      simp only [List.length_cons] at hlt ⊢
      exact ⟨by rw [hlen]; congr 1; omega, by omega⟩

/-- **The simulation, step by step.** -/
theorem refines_step (hsize : size ∣ 2 ^ 32) {a : Action β} (hR : Refines s t)
    (h : (machine size β).step s a = some s') :
    ∃ t', (BoundedQueue.machine size β).run t (answer s a) = some t' ∧ Refines s' t' := by
  cases a with
  | startPut b => exact ⟨t, rfl, refines_startPut hsize hR h⟩
  | startGet => exact ⟨t, rfl, refines_startGet hsize hR h⟩
  | test => exact ⟨t, rfl, refines_test hR h⟩
  | store =>
    cases hp : s.producer with
    | idle => simp only [machine, step, hp, reduceCtorEq] at h
    | storing idx b =>
      simp only [machine, step, hp, Option.some_inj] at h
      subst h
      obtain ⟨q, hq, hR'⟩ := refines_store hR hp
      refine ⟨(q, t.2), ?_, hR'⟩
      simp only [answer, hp, Machine.run, BoundedQueue.machine, hq]
      rfl
  | move =>
    cases hc : s.consumer with
    | idle => simp only [machine, step, hc, reduceCtorEq] at h
    | testing => simp only [machine, step, hc, reduceCtorEq] at h
    | moving idx =>
      simp only [machine, step, hc, Option.some_inj] at h
      subst h
      obtain ⟨b, q, hq, hR'⟩ := refines_move hR hc
      refine ⟨(q, t.2 ++ [b]), ?_, hR'⟩
      simp only [answer, Machine.run, BoundedQueue.machine, hq]
      rfl

end Step

/-- **Refinement.** Every run of the pool is answered by a run of the queue. -/
theorem refines_run (hsize : size ∣ 2 ^ 32) {as : List (Action β)} {s : State size β}
    (h : (machine size β).run (init size β) as = some s) :
    ∃ t, (BoundedQueue.machine size β).run (BoundedQueue.empty size β, [])
        ((machine size β).answers answer (init size β) as) = some t ∧ Refines s t :=
  Machine.simulates_run (fun _ _ _ _ ↦ refines_step hsize) refines_init h

namespace Refines

variable {s : State size β} {t : BoundedQueue size β × List β}

theorem store_vacant (hR : Refines s t) {idx : Fin size} {b : β}
    (hp : s.producer = .storing idx b) : s.pool.buffers idx = none := by
  obtain ⟨rfl, hlt⟩ := hR.storing idx b hp
  exact hR.tracks.window.vacant hlt

theorem returned_prefix (hR : Refines s t) : s.returned <+: s.put.map some := by
  rw [hR.returned, hR.put, List.append_assoc, List.map_append]
  exact List.prefix_append _ _

theorem returned_ne_none (hR : Refines s t) {r : Option β} (hr : r ∈ s.returned) : r ≠ none := by
  rw [hR.returned, List.mem_map] at hr
  obtain ⟨b, -, rfl⟩ := hr
  exact Option.some_ne_none b

/-- Between two calls of `Put` the slots in use are those of the buffers not yet returned. -/
theorem buffers_eq_some_iff (hR : Refines s t) (hp : s.producer = .idle) {idx : Fin size} {b : β} :
    s.pool.buffers idx = some b ↔
      ∃ k, s.returned.length ≤ k ∧ s.put[k]? = some b ∧ idx.val = k % size := by
  rw [hR.tracks.window.eq_some_iff, hR.returned, hR.put, hp, Producer.inHand, List.append_nil,
    List.length_map]
  constructor
  · rintro ⟨k, hk, rfl⟩
    exact ⟨t.2.length + k, Nat.le_add_right _ _,
      by rw [List.getElem?_append_right (Nat.le_add_right _ _), Nat.add_sub_cancel_left, hk], rfl⟩
  · rintro ⟨k, hle, hk, hidx⟩
    rw [List.getElem?_append_right hle] at hk
    refine ⟨k - t.2.length, hk, Fin.ext ?_⟩
    rw [val_slot, Nat.add_sub_cancel' hle, hidx]

end Refines

/-- **One producer, one consumer.** Whatever the interleaving, the pool of `src/` behaves as a
bounded queue: no store destroys a buffer, no `Get` returns null, buffers come out in the order
they went in, and at rest the slots hold exactly what is still to be returned. -/
theorem pool_refines_bounded_queue {as : List (Action β)} {s : State bufferPoolSize β}
    (h : (machine bufferPoolSize β).run (init bufferPoolSize β) as = some s) :
    (∃ t, (BoundedQueue.machine bufferPoolSize β).run (BoundedQueue.empty bufferPoolSize β, [])
        ((machine bufferPoolSize β).answers answer (init bufferPoolSize β) as) = some t ∧
          s.returned = t.2.map some) ∧
      (∀ idx b, s.producer = .storing idx b → s.pool.buffers idx = none) ∧
      (∀ r ∈ s.returned, r ≠ none) ∧
      s.returned <+: s.put.map some ∧
      (s.producer = .idle → s.consumer = .idle → ∀ idx b, s.pool.buffers idx = some b ↔
        ∃ k, s.returned.length ≤ k ∧ s.put[k]? = some b ∧ idx.val = k % bufferPoolSize) := by
  obtain ⟨t, ht, hR⟩ := refines_run (by decide) h
  exact ⟨⟨t, ht, hR.returned⟩, fun _ _ ↦ hR.store_vacant, fun _ ↦ hR.returned_ne_none,
    hR.returned_prefix, fun hp _ _ _ ↦ hR.buffers_eq_some_iff hp⟩

/-- The consumer spins on the empty pool until the producer has stored. -/
def spinning : List (Action ℕ) := [.startGet, .test, .startPut 7, .test, .store, .test, .move]

theorem pool_refines_bounded_queue_spinning :
    ∃ s, (machine bufferPoolSize ℕ).run (init bufferPoolSize ℕ) spinning = some s ∧
      s.returned = [some 7] ∧ s.returned <+: s.put.map some :=
  ⟨_, rfl, rfl, (@pool_refines_bounded_queue ℕ spinning _ rfl).2.2.2.1⟩

end ProducerConsumer

end FulgurLogging
