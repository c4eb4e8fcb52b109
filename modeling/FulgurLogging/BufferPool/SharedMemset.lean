import FulgurLogging.BufferPool.Memset

/-!
# One pool shared by many threads, with the `memset`

Any number of threads each repeat `Get` and then `Put` on one pool of the logging directory. The
`memset` behind the move of `Get` adds one way for this to go wrong to those of the pool without it:
a `Put` draws the index at which a thread has moved a buffer out and not cleared yet. Its store and
the `memset` are then on the same slot, and if the store is first, the buffer is gone.

`Undrawn` says that a step is not such a `Put`. While all steps are undrawn, and unlapped as without
the `memset`, every `memset` finds its slot null, and the steps in between are those of the other
pool. The invariant `Cleared` is that of the other pool, and that the slots to be cleared are null
and nobody is about to store there.
-/

namespace FulgurLogging

open Ring Transition Ownership

namespace Mover

variable {size : ℕ} [NeZero size] {β : Type*} {pool : CircularBufferPool size β}
  {m : Mover size β} {idx : Fin size}

/-- The index that the next access draws for a `Put`. -/
def draws (pool : CircularBufferPool size β) : Mover size β → Option (Fin size)
  | holding _ => some pool.headFetchAdd.1
  | _ => none

/-- A thread stores where it has drawn. -/
theorem storingAt_act : (m.act pool).2.storingAt = m.draws pool := by
  cases m with
  | testing j =>
    rw [act]
    split <;> rfl
  | _ => rfl

/-- Only a store fills a slot. -/
theorem act_vacant (hnull : pool.buffers idx = none) (haim : m.storingAt ≠ some idx) :
    (m.act pool).1.buffers idx = none := by
  cases m with
  | idle | testing _ | holding _ => exact hnull
  | moving j =>
    rw [act, CircularBufferPool.moveOut_snd, CircularBufferPool.store_buffers,
      Function.update_apply, hnull, ite_self]
  | storing j buffer =>
    have hne : idx ≠ j := fun hc ↦ haim (by rw [hc]; rfl)
    rw [act, CircularBufferPool.store_buffers, Function.update_of_ne hne]
    exact hnull

end Mover

namespace SharedMemset

open Memset

variable {size : ℕ} {T β : Type*}

/-- The shared pool, every thread between two rounds. -/
def start (T : Type*) (pool : CircularBufferPool size β) : State size Unit T β :=
  ⟨Sharing.start T pool, fun _ ↦ none⟩

/-! ## The invariant -/

/-- Every buffer is in one place, and no two threads rely on the same slot. A thread about to clear
has its buffer in hand, and the slot is null and stays so. -/
structure Cleared (tokens : Set β) (s : State size Unit T β) : Prop where
  exclusive : Sharing.Exclusive tokens s.traffic
  holding : ∀ t idx, s.clearing t = some idx → ∃ buffer, s.traffic.mover t = .holding buffer
  vacant : ∀ t idx, s.clearing t = some idx → (s.traffic.pool ()).buffers idx = none
  unaimed : ∀ t idx, s.clearing t = some idx → ∀ u, (s.traffic.mover u).storingAt ≠ some idx

variable {tokens : Set β} {xs : List β} {s : State size Unit T β} {t u : T} {idx : Fin size}

/-- The step lemma, for a `memset`. -/
theorem Cleared.cleared [DecidableEq T] (h : Cleared tokens s) (t : T) :
    Cleared tokens (s.cleared t) :=
  ⟨h.exclusive, fun u idx hu ↦ h.holding u idx (clearing_of_cleared hu),
    fun u idx hu ↦ h.vacant u idx (clearing_of_cleared hu),
    fun u idx hu ↦ h.unaimed u idx (clearing_of_cleared hu)⟩

variable [NeZero size]

/-- The step is not a `Put` that draws an index about to be cleared. -/
def Undrawn (s : State size Unit T β) (t : T) : Prop :=
  s.clearing t = none →
    ∀ idx ∈ (s.traffic.mover t).draws (s.traffic.pool ()), ∀ u, s.clearing u ≠ some idx

/-- Nor is it one by which the thread laps another. -/
def Harmless (s : State size Unit T β) (t : T) : Prop :=
  Undrawn s t ∧ (s.clearing t = none → Sharing.Unlapped s.traffic t)

instance [Fintype T] (s : State size Unit T β) (t : T) : Decidable (Undrawn s t) :=
  inferInstanceAs (Decidable (_ → ∀ idx ∈ (s.traffic.mover t).draws (s.traffic.pool ()), _))

instance [Fintype T] [DecidableEq β] (s : State size Unit T β) (t : T) : Decidable (Harmless s t) :=
  inferInstanceAs (Decidable (_ ∧ (_ → _)))

theorem cleared_start {pool : CircularBufferPool size β} {lo : ℕ} (h : pool.Tracks lo xs 0 0)
    (hxs : xs.Nodup) : Cleared {x | x ∈ xs} (start T pool) :=
  ⟨Sharing.exclusive_start h hxs, nofun, nofun, nofun⟩

variable [DecidableEq T]

namespace Cleared

/-- The thread that has moved a buffer out is the only one with a claim on the slot. -/
theorem moved (h : Cleared tokens s) (hm : s.traffic.mover t = .moving idx) :
    (∃ buffer, (Traffic.advance (Sharing.routes T) s.traffic t).mover t = .holding buffer) ∧
      ((Traffic.advance (Sharing.routes T) s.traffic t).pool ()).buffers idx = none ∧
      ∀ u, ((Traffic.advance (Sharing.routes T) s.traffic t).mover u).storingAt ≠ some idx := by
  have hentitled := h.exclusive.entitled t
  have hmover : (Traffic.advance (Sharing.routes T) s.traffic t).mover t = _ :=
    Sharing.advance_mover
  rw [hm, Mover.act] at hmover
  rw [hm] at hentitled
  refine ⟨⟨_, hmover⟩, ?_, fun u hu ↦ ?_⟩
  · rw [Sharing.advance_pool, hm, Mover.act, CircularBufferPool.moveOut_snd,
      CircularBufferPool.store_buffers, Function.update_self]
  · by_cases hut : u = t
    · rw [hut, hmover] at hu
      cases hu
    · -- a `Put` aimed at this slot would have found it null before the move
      rw [Traffic.advance_mover_of_ne hut] at hu
      obtain ⟨buffer, hstoring⟩ := Mover.storingAt_eq_some_iff.mp hu
      exact hentitled (h.exclusive.store_vacant hstoring)

/-- The slots of the other threads stay null, and nobody draws them. -/
theorem keep (h : Cleared tokens s) (hnone : s.clearing t = none) (hundrawn : Undrawn s t)
    (hu : s.clearing u = some idx) :
    ((Traffic.advance (Sharing.routes T) s.traffic t).pool ()).buffers idx = none ∧
      ∀ v, ((Traffic.advance (Sharing.routes T) s.traffic t).mover v).storingAt ≠ some idx := by
  refine ⟨?_, fun v ↦ ?_⟩
  · rw [Sharing.advance_pool]
    exact Mover.act_vacant (h.vacant u idx hu) (h.unaimed u idx hu t)
  · by_cases hvt : v = t
    · rw [hvt, Sharing.advance_mover, Mover.storingAt_act]
      exact fun hdraws ↦ hundrawn hnone idx hdraws u hu
    · rw [Traffic.advance_mover_of_ne hvt]
      exact h.unaimed u idx hu v

/-- **The step lemma.** -/
theorem advance (h : Cleared tokens s) (hharmless : Harmless s t) :
    Cleared tokens (advance (Sharing.routes T) s t) := by
  cases hclearing : s.clearing t with
  | some idx =>
    rw [advance_of_null hclearing (h.vacant t idx hclearing)]
    exact h.cleared t
  | none =>
    have hmoved (idx : Fin size) (hidx : (s.traffic.mover t).movingAt = some idx) :=
      h.moved (Mover.movingAt_eq_some_iff.mp hidx)
    have hself (idx : Fin size)
        (hidx : Function.update s.clearing t (s.traffic.mover t).movingAt t = some idx) :
        (s.traffic.mover t).movingAt = some idx := by
      rwa [Function.update_self] at hidx
    rw [advance_of_none hclearing]
    refine ⟨h.exclusive.advance (hharmless.2 hclearing), fun u idx hu ↦ ?_, fun u idx hu ↦ ?_,
      fun u idx hu ↦ ?_⟩
    · by_cases hut : u = t
      · subst hut
        exact (hmoved idx (hself idx hu)).1
      · obtain ⟨buffer, hm⟩ := h.holding u idx ((Function.update_of_ne hut _ _).symm.trans hu)
        exact ⟨buffer, (Traffic.advance_mover_of_ne hut).trans hm⟩
    · by_cases hut : u = t
      · subst hut
        exact (hmoved idx (hself idx hu)).2.1
      · exact (h.keep hclearing hharmless.1 ((Function.update_of_ne hut _ _).symm.trans hu)).1
    · by_cases hut : u = t
      · subst hut
        exact (hmoved idx (hself idx hu)).2.2
      · exact (h.keep hclearing hharmless.1 ((Function.update_of_ne hut _ _).symm.trans hu)).2

/-- **The run lemma.** -/
theorem run {as : List T} {s' : State size Unit T β} (hs : Cleared tokens s)
    (hharmless : (machine size β (Sharing.routes T)).Along Harmless s as)
    (h : (machine size β (Sharing.routes T)).run s as = some s') : Cleared tokens s' := by
  refine Machine.PreservesUnder.run (I := Cleared tokens) (fun s s' t hI hC hstep ↦ ?_) hs
    hharmless h
  obtain rfl := Option.some_inj.mp hstep
  exact hI.advance hC

end Cleared

/-! ## After a `memset` of a slot in use -/

/-- A `memset` of a buffer leaves it nowhere. -/
theorem gone_of_memset (h : Placed s.traffic.content tokens) (hclearing : s.clearing t = some idx)
    {x : β} (hx : (s.traffic.pool ()).buffers idx = some x) (p : Traffic.Place size Unit T) :
    (advance (Sharing.routes T) s t).traffic.content p ≠ some x := by
  have hslot : s.traffic.content (.slot () idx) = some x := hx
  have hpool : (advance (Sharing.routes T) s t).traffic.pool () =
      (s.traffic.pool ()).memset idx := by
    rw [advance_of_some hclearing]
    rfl
  have hmover : (advance (Sharing.routes T) s t).traffic.mover = s.traffic.mover := by
    rw [advance_of_some hclearing]
  intro hp
  -- elsewhere it was not, because a buffer has one place
  rcases p with ⟨⟨⟩, i⟩ | u
  · rw [Traffic.State.content, hpool, CircularBufferPool.memset_buffers] at hp
    by_cases hi : i = idx
    · rw [hi, Function.update_self] at hp
      cases hp
    · rw [Function.update_of_ne hi] at hp
      have heq : Traffic.Place.slot () i = .slot () idx := h.place_unique hp hslot
      exact hi (Traffic.Place.slot.inj heq).2
  · rw [Traffic.State.content, hmover] at hp
    exact absurd (h.place_unique (q := .hand u) hslot hp) (by simp)

/-- A store at an index about to be cleared: its buffer is there for the `memset`. -/
theorem gone_of_storing (h : Placed s.traffic.content {x | x ∈ xs}) {x : β} (hut : u ≠ t)
    (hnone : s.clearing t = none) (hu : s.clearing u = some idx)
    (hm : s.traffic.mover t = .storing idx (some x))
    (hvacant : (s.traffic.pool ()).buffers idx = none) :
    x ∈ xs ∧ ∀ p, (after (Sharing.routes T) s [t, u]).traffic.content p ≠ some x := by
  have hplaced : Placed (Traffic.advance (Sharing.routes T) s.traffic t).content {x | x ∈ xs} := by
    refine Traffic.placed_advance h fun i buffer hi ↦ ?_
    rw [hm] at hi
    cases hi
    exact hvacant
  have hstored : ((Traffic.advance (Sharing.routes T) s.traffic t).pool ()).buffers idx =
      some x := by
    rw [Sharing.advance_pool, hm, Mover.act, CircularBufferPool.store_buffers,
      Function.update_self]
  rw [after_cons, advance_of_none hnone, after_cons]
  refine ⟨hplaced.mem_tokens (p := .slot () idx) hstored, fun p ↦ ?_⟩
  refine gone_of_memset hplaced ?_ hstored p
  exact (Function.update_of_ne hut _ _).trans hu

/-- A `Put` that draws an index about to be cleared may store before the `memset`. -/
theorem exists_gone (h : Cleared {x | x ∈ xs} s) (hnone : s.clearing t = none)
    (hunlapped : Sharing.Unlapped s.traffic t) (hdrawn : ¬Undrawn s t) :
    ∃ as, ∃ x ∈ xs, ∀ p, (after (Sharing.routes T) s (t :: as)).traffic.content p ≠ some x := by
  rw [Undrawn] at hdrawn
  push Not at hdrawn
  obtain ⟨-, idx, hdraws, u, hu⟩ := hdrawn
  have hut : u ≠ t := by
    rintro rfl
    rw [hnone] at hu
    cases hu
  obtain ⟨buffer, hm⟩ : ∃ buffer, s.traffic.mover t = .holding buffer := by
    cases hm : s.traffic.mover t with
    | holding buffer => exact ⟨buffer, rfl⟩
    | _ =>
      rw [hm] at hdraws
      cases hdraws
  have hexcl := h.exclusive.advance hunlapped
  have hbuffer := h.exclusive.entitled t
  rw [hm] at hbuffer hdraws
  obtain ⟨x, rfl⟩ := Option.ne_none_iff_exists'.mp hbuffer
  have hstoring : (Traffic.advance (Sharing.routes T) s.traffic t).mover t =
      .storing idx (some x) := by
    rw [Sharing.advance_mover, hm, ← Option.some_inj.mp hdraws]
    rfl
  -- `t` draws the index and stores, and then `u` clears
  refine ⟨[t, u], x, ?_⟩
  rw [after_cons, advance_of_none hnone]
  refine gone_of_storing hexcl.placed hut ?_ ?_ hstoring (hexcl.store_vacant hstoring)
  · exact (Function.update_self t _ s.clearing).trans (by rw [hm]; rfl)
  · exact (Function.update_of_ne hut _ _).trans hu

/-! ## The pool of the logging directory -/

/-- **What the `memset` adds.** Any number of threads each repeat `Get` and `Put` on one pool of
distinct buffers. In every run whose steps are all unlapped, and none of them draws for a `Put` an
index about to be cleared, each buffer is in exactly one place, no `Get` returns null, and every
`memset` finds its slot null. From there, a step that does draw such an index and is otherwise
unlapped can be continued to a state where a buffer of the pool is in no place. -/
theorem safe_while_harmless {pool : CircularBufferPool size β} {lo : ℕ}
    (hpool : pool.Tracks lo xs 0 0) (hxs : xs.Nodup) {as : List T} {s : State size Unit T β}
    (hrun : (machine size β (Sharing.routes T)).run (start T pool) as = some s)
    (hharmless : (machine size β (Sharing.routes T)).Along Harmless (start T pool) as) :
    Sharing.Safe xs s.traffic ∧
      (∀ t idx, s.clearing t = some idx → (s.traffic.pool ()).buffers idx = none) ∧
      ∀ t, s.clearing t = none → Sharing.Unlapped s.traffic t → ¬Undrawn s t →
        ∃ bs s', (machine size β (Sharing.routes T)).run s (t :: bs) = some s' ∧
          ∃ x ∈ xs, ∀ p, s'.traffic.content p ≠ some x := by
  have h := (cleared_start hpool hxs).run hharmless hrun
  refine ⟨h.exclusive.safe, h.vacant, fun t hnone hunlapped hdrawn ↦ ?_⟩
  obtain ⟨bs, hgone⟩ := exists_gone h hnone hunlapped hdrawn
  exact ⟨bs, _, run_eq_after s (t :: bs), hgone⟩

/-- One thread has moved a buffer out of the full pool and not cleared the slot; another has moved
the next one out, cleared its slot, and is about to put its buffer back. -/
def uncleared : List Bool := [false, false, false, true, true, true, true]

theorem safe_while_harmless_uncleared :
    ∃ s, (machine 2 ℕ (Sharing.routes Bool)).run (start Bool twoBuffers) uncleared = some s ∧
      Sharing.Safe [0, 1] s.traffic ∧
      ∃ bs s', (machine 2 ℕ (Sharing.routes Bool)).run s (true :: bs) = some s' ∧
        ∃ x ∈ [0, 1], ∀ p, s'.traffic.content p ≠ some x := by
  have h := safe_while_harmless (T := Bool) tracks_twoBuffers (by decide)
    (run_eq_after _ uncleared) (by decide +kernel)
  exact ⟨_, run_eq_after _ uncleared, h.1, h.2.2 true (by decide +kernel)
    (by decide +kernel) (by decide +kernel)⟩

end SharedMemset

end FulgurLogging
