import FulgurLogging.BufferPool.Traffic

/-!
# One pool shared by many threads

Any number of threads each repeat `Get` and then `Put` on one pool. The counters hand out tickets
atomically, but nothing orders the slot accesses of two tickets that fall on the same index, so a
thread delayed between its `fetch_add` and its slot access can be lapped by the others.

`Unlapped` says that a step is not the one that makes this go wrong: a `Put` draws an index whose
slot is null and which no other `Put` is about to store at, and the test of a `Get` does not pass
while another `Get` is past its own at the same index. It looks at the state before the step only.

Both directions are proved. While all steps are unlapped every buffer is in exactly one place and
no `Get` returns null; the invariant `Exclusive` needs neither the counters nor the number of
buffers. And a step that is not unlapped can be continued, by two more steps at most, to a state in
which a buffer is gone or a `Get` has returned null.
-/

namespace FulgurLogging

open Ring Transition Ownership Traffic

namespace Mover

variable {size : ℕ} {β : Type*}

/-- The index at which the thread is about to move a buffer out. -/
def movingAt : Mover size β → Option (Fin size)
  | moving idx => some idx
  | _ => none

/-- The index at which the thread is about to store. -/
def storingAt : Mover size β → Option (Fin size)
  | storing idx _ => some idx
  | _ => none

theorem movingAt_eq_some_iff {m : Mover size β} {idx : Fin size} :
    m.movingAt = some idx ↔ m = moving idx := by
  cases m <;> simp [movingAt]

theorem storingAt_eq_some_iff {m : Mover size β} {idx : Fin size} :
    m.storingAt = some idx ↔ ∃ buffer, m = storing idx buffer := by
  cases m <;> simp [storingAt]

/-- What a thread past its test, or with a ticket of `Put`, relies on. -/
def Entitled (buffers : Fin size → Option β) : Mover size β → Prop
  | moving idx => buffers idx ≠ none
  | holding buffer => buffer ≠ none
  | storing idx buffer => buffers idx = none ∧ buffer ≠ none
  | _ => True

/-- The two threads are not about to empty the same slot, nor to fill the same slot. -/
structure Apart (m m' : Mover size β) : Prop where
  moving : ∀ idx, m.movingAt = some idx → m'.movingAt ≠ some idx
  storing : ∀ idx, m.storingAt = some idx → m'.storingAt ≠ some idx

theorem Apart.symm {m m' : Mover size β} (h : Apart m m') : Apart m' m :=
  ⟨fun idx h₁ h₂ ↦ h.moving idx h₂ h₁, fun idx h₁ h₂ ↦ h.storing idx h₂ h₁⟩

/-- A thread about to move nothing and to store nothing is apart from every other. -/
theorem Apart.of_none {m m' : Mover size β} (hmoving : m.movingAt = none)
    (hstoring : m.storingAt = none) : Apart m m' := by
  refine ⟨fun idx h ↦ ?_, fun idx h ↦ ?_⟩
  · exact absurd (h.symm.trans hmoving) (Option.some_ne_none idx)
  · exact absurd (h.symm.trans hstoring) (Option.some_ne_none idx)

variable [NeZero size] {pool : CircularBufferPool size β} {m m' : Mover size β}

/-- A `Put` draws an index only when the slot is null and no thread is about to store there, and
the test of a `Get` passes only when no thread is about to empty the slot. -/
def Unlapped {T : Type*} (pool : CircularBufferPool size β) (mover : T → Mover size β) :
    Mover size β → Prop
  | testing idx => pool.holdsBuffer idx → ∀ u, (mover u).movingAt ≠ some idx
  | holding _ =>
    pool.buffers pool.headFetchAdd.1 = none ∧
      ∀ u, (mover u).storingAt ≠ some pool.headFetchAdd.1
  | _ => True

instance {T : Type*} [Fintype T] [DecidableEq β] (mover : T → Mover size β) :
    ∀ m : Mover size β, Decidable (m.Unlapped pool mover)
  | testing idx =>
    inferInstanceAs (Decidable (pool.holdsBuffer idx → ∀ u, (mover u).movingAt ≠ some idx))
  | holding _ => inferInstanceAs (Decidable (_ ∧ ∀ u, (mover u).storingAt ≠ _))
  | idle | moving _ | storing .. => isTrue trivial

/-! ## One access, and one other thread -/

/-- The acting thread gains only what it may rely on, if `Put` draws the index of a null slot. -/
theorem Entitled.act (h : m.Entitled pool.buffers)
    (hput : ∀ buffer, m = holding buffer → pool.buffers pool.headFetchAdd.1 = none) :
    (m.act pool).2.Entitled (m.act pool).1.buffers := by
  cases m with
  | idle => trivial
  | testing idx =>
    rw [Mover.act]
    split
    next hfull => exact Option.isSome_iff_ne_none.mp hfull
    next => trivial
  | moving idx => exact h
  | holding buffer => exact ⟨hput buffer rfl, h⟩
  | storing idx buffer => trivial

/-- The access takes nothing from a thread that stands apart. -/
theorem Entitled.frame (h : m.Entitled pool.buffers) (h' : m'.Entitled pool.buffers)
    (hap : Apart m m') : m'.Entitled (m.act pool).1.buffers := by
  cases m with
  | idle | testing _ | holding _ => exact h'
  | moving idx =>
    cases m' with
    | idle | testing _ | holding _ => exact h'
    | moving j =>
      have hne : j ≠ idx := fun hc ↦ hap.moving idx rfl (by rw [hc]; rfl)
      rw [Entitled, Mover.act, CircularBufferPool.moveOut_snd, CircularBufferPool.store_buffers,
        Function.update_of_ne hne]
      exact h'
    | storing j buffer =>
      refine ⟨?_, h'.2⟩
      rw [Mover.act, CircularBufferPool.moveOut_snd, CircularBufferPool.store_buffers,
        Function.update_apply, h'.1, ite_self]
  | storing idx buffer =>
    cases m' with
    | idle | testing _ | holding _ => exact h'
    | moving j =>
      have hne : j ≠ idx := fun hc ↦ h' (by rw [hc]; exact h.1)
      rw [Entitled, Mover.act, CircularBufferPool.store_buffers, Function.update_of_ne hne]
      exact h'
    | storing j buffer =>
      have hne : j ≠ idx := fun hc ↦ hap.storing idx rfl (by rw [hc]; rfl)
      refine ⟨?_, h'.2⟩
      rw [Mover.act, CircularBufferPool.store_buffers, Function.update_of_ne hne]
      exact h'.1

/-- What a thread is about to do after its access is apart from a thread it does not lap. -/
theorem Apart.act
    (htest : ∀ idx, m = testing idx → pool.holdsBuffer idx → m'.movingAt ≠ some idx)
    (hput : ∀ buffer, m = holding buffer → m'.storingAt ≠ some pool.headFetchAdd.1) :
    Apart (m.act pool).2 m' := by
  cases m with
  | idle | moving _ | storing _ _ => exact .of_none rfl rfl
  | testing idx =>
    rw [Mover.act]
    split
    next hfull =>
      refine ⟨fun j hj ↦ ?_, fun j hj ↦ absurd hj.symm (Option.some_ne_none j)⟩
      cases hj
      exact htest idx rfl hfull
    next => exact .of_none rfl rfl
  | holding buffer =>
    refine ⟨fun j hj ↦ absurd hj.symm (Option.some_ne_none j), fun j hj ↦ ?_⟩
    cases hj
    exact hput buffer rfl

end Mover

namespace Sharing

variable {size : ℕ} {T β : Type*}

/-- Every thread takes from the one pool and puts to it. -/
def routes (T : Type*) : Routes Unit T := ⟨fun _ ↦ (), fun _ ↦ ()⟩

/-- Each of the buffers is in one place, and no `Get` has returned null. -/
def Safe (xs : List β) (s : State size Unit T β) : Prop :=
  (∀ x ∈ xs, ∃! p, s.content p = some x) ∧ ∀ t buffer, s.mover t = .holding buffer → buffer ≠ none

/-! ## The invariant -/

/-- Every buffer is in one place, and no two threads rely on the same slot. -/
structure Exclusive (tokens : Set β) (s : State size Unit T β) : Prop where
  placed : Placed s.content tokens
  entitled : ∀ t, (s.mover t).Entitled (s.pool ()).buffers
  apart : ∀ t u, t ≠ u → (s.mover t).Apart (s.mover u)

variable {tokens : Set β} {xs : List β} {s : State size Unit T β} {t u : T}

theorem Exclusive.store_vacant (h : Exclusive tokens s) {idx : Fin size} {buffer : Option β}
    (hm : s.mover t = .storing idx buffer) : (s.pool ()).buffers idx = none := by
  have hentitled := h.entitled t
  rw [hm] at hentitled
  exact hentitled.1

theorem Exclusive.safe (h : Exclusive {x | x ∈ xs} s) : Safe xs s := by
  refine ⟨fun x hx ↦ h.placed.existsUnique hx, fun t buffer hm ↦ ?_⟩
  have hentitled := h.entitled t
  rwa [hm] at hentitled

/-! ## Runs without a lap -/

variable [NeZero size]

/-- The step of the thread is not the one by which it laps another. -/
def Unlapped (s : State size Unit T β) (t : T) : Prop := (s.mover t).Unlapped (s.pool ()) s.mover

instance [Fintype T] [DecidableEq β] (s : State size Unit T β) (t : T) : Decidable (Unlapped s t) :=
  inferInstanceAs (Decidable ((s.mover t).Unlapped (s.pool ()) s.mover))

theorem Unlapped.testing (h : Unlapped s t) (u : T) (idx : Fin size)
    (hm : s.mover t = .testing idx) (hfull : (s.pool ()).holdsBuffer idx) :
    (s.mover u).movingAt ≠ some idx := by
  rw [Unlapped, hm] at h
  exact h hfull u

theorem Unlapped.holding (h : Unlapped s t) {buffer : Option β} (hm : s.mover t = .holding buffer) :
    (s.pool ()).buffers (s.pool ()).headFetchAdd.1 = none ∧
      ∀ u, (s.mover u).storingAt ≠ some (s.pool ()).headFetchAdd.1 := by
  rwa [Unlapped, hm] at h

/-- The shared pool, every thread between two rounds. -/
def start (T : Type*) (pool : CircularBufferPool size β) : State size Unit T β :=
  Traffic.start fun _ ↦ pool

theorem exclusive_start {pool : CircularBufferPool size β} {lo : ℕ} (h : pool.Tracks lo xs 0 0)
    (hxs : xs.Nodup) : Exclusive {x | x ∈ xs} (start T pool) :=
  ⟨placed_start (p := ()) (h.window.placed hxs) fun _ hne ↦ absurd rfl hne, fun _ ↦ trivial,
    fun _ _ _ ↦ ⟨nofun, nofun⟩⟩

variable [DecidableEq T]

theorem advance_pool : (advance (routes T) s t).pool () = ((s.mover t).act (s.pool ())).1 :=
  advance_pool_touched

theorem advance_mover : (advance (routes T) s t).mover t = ((s.mover t).act (s.pool ())).2 :=
  advance_mover_self

/-- **The step lemma.** -/
theorem Exclusive.advance (h : Exclusive tokens s) (hun : Unlapped s t) :
    Exclusive tokens (advance (routes T) s t) := by
  have hapart : ∀ u, ((s.mover t).act (s.pool ())).2.Apart (s.mover u) := fun u ↦
    Mover.Apart.act (hun.testing u) fun _ hm ↦ (hun.holding hm).2 u
  refine ⟨placed_advance h.placed fun _ _ ↦ h.store_vacant, fun u ↦ ?_, fun u v huv ↦ ?_⟩
  · rw [advance_pool]
    by_cases hu : u = t
    · rw [hu, advance_mover]
      exact (h.entitled t).act fun _ hm ↦ (hun.holding hm).1
    · rw [advance_mover_of_ne hu]
      exact (h.entitled t).frame (h.entitled u) (h.apart t u (Ne.symm hu))
  · by_cases hu : u = t
    · subst hu
      rw [advance_mover, advance_mover_of_ne huv.symm]
      exact hapart v
    · rw [advance_mover_of_ne hu]
      by_cases hv : v = t
      · subst hv
        rw [advance_mover]
        exact (hapart u).symm
      · rw [advance_mover_of_ne hv]
        exact h.apart u v huv

/-- **The run lemma.** -/
theorem Exclusive.run {as : List T} {s' : State size Unit T β} (hs : Exclusive tokens s)
    (hun : (machine size β (routes T)).Along Unlapped s as)
    (h : (machine size β (routes T)).run s as = some s') : Exclusive tokens s' := by
  refine Machine.PreservesUnder.run (I := Exclusive tokens) (fun s s' t hI hC hstep ↦ ?_) hs hun h
  rw [machine_step, Option.some_inj] at hstep
  exact hstep ▸ hI.advance hC

/-! ## After a lap -/

/-- A store over a buffer leaves it nowhere. -/
theorem gone_of_store (h : Placed s.content tokens) {idx : Fin size} {buffer : Option β} {x : β}
    (hm : s.mover t = .storing idx buffer) (hx : (s.pool ()).buffers idx = some x)
    (p : Place size Unit T) : (advance (routes T) s t).content p ≠ some x := by
  have hslot : s.content (.slot () idx) = some x := hx
  intro hp
  rcases p with ⟨⟨⟩, i⟩ | u
  · rw [State.content, advance_pool, hm, Mover.act, CircularBufferPool.store_buffers] at hp
    by_cases hi : i = idx
    · -- the buffer stored is the one in hand, which is a second place
      rw [hi, Function.update_self] at hp
      have hhand : s.content (.hand t) = some x := by
        rw [State.content, hm]
        exact hp
      exact absurd (h.place_unique hslot hhand) (by simp)
    · rw [Function.update_of_ne hi] at hp
      have heq : Place.slot () i = Place.slot () idx := h.place_unique hp hslot
      exact hi (Place.slot.inj heq).2
  · rw [State.content] at hp
    by_cases hu : u = t
    · rw [hu, advance_mover, hm] at hp
      exact absurd hp (by simp [Mover.act, Mover.hand])
    · rw [advance_mover_of_ne hu] at hp
      exact absurd (h.place_unique (q := .hand u) hslot hp) (by simp)

theorem not_safe_of_store (h : Placed s.content {x | x ∈ xs}) {idx : Fin size}
    {buffer : Option β} {x : β} (hm : s.mover t = .storing idx buffer)
    (hx : (s.pool ()).buffers idx = some x) : ¬ Safe xs (advance (routes T) s t) := by
  intro hsafe
  have hmem : x ∈ xs := h.mem_tokens (p := .slot () idx) hx
  obtain ⟨p, hp, -⟩ := hsafe.1 x hmem
  exact gone_of_store h hm hx p hp

/-- Two `Get`s past their tests at one index: the second to move returns null. -/
theorem not_safe_of_two_moving (htu : t ≠ u) {idx : Fin size} (ht : s.mover t = .moving idx)
    (hu : s.mover u = .moving idx) :
    ¬ Safe xs (advance (routes T) (advance (routes T) s u) t) := by
  have ht' : (advance (routes T) s u).mover t = .moving idx := by
    rw [advance_mover_of_ne htu, ht]
  have hnull : ((advance (routes T) s u).pool ()).buffers idx = none := by
    rw [advance_pool, hu, Mover.act, CircularBufferPool.moveOut_snd,
      CircularBufferPool.store_buffers, Function.update_self]
  refine fun hsafe ↦ hsafe.2 t none ?_ rfl
  rw [advance_mover, ht', Mover.act, CircularBufferPool.moveOut_fst, hnull]

/-- Two `Put`s about to store at one index: `u` stores first, and `t` overwrites its buffer. -/
theorem not_safe_of_two_storing (h : Placed s.content {x | x ∈ xs}) (htu : t ≠ u) {idx : Fin size}
    {buffer : Option β} {x : β} (ht : s.mover t = .storing idx buffer)
    (hu : s.mover u = .storing idx (some x)) (hvacant : (s.pool ()).buffers idx = none) :
    ¬ Safe xs (advance (routes T) (advance (routes T) s u) t) := by
  have hplaced : Placed (advance (routes T) s u).content {x | x ∈ xs} := by
    refine placed_advance h fun i b hb ↦ ?_
    rw [hu] at hb
    cases hb
    exact hvacant
  have ht' : (advance (routes T) s u).mover t = .storing idx buffer := by
    rw [advance_mover_of_ne htu, ht]
  have hstored : ((advance (routes T) s u).pool ()).buffers idx = some x := by
    rw [advance_pool, hu, Mover.act, CircularBufferPool.store_buffers, Function.update_self]
  exact not_safe_of_store hplaced ht' hstored

/-- **Every lap can go wrong.** A step that is not unlapped continues to a state where a buffer is
gone or a `Get` has returned null. -/
theorem exists_not_safe (h : Exclusive {x | x ∈ xs} s) (hlap : ¬ Unlapped s t) :
    ∃ as, ¬ Safe xs (after (routes T) s (t :: as)) := by
  rw [Unlapped] at hlap
  cases hm : s.mover t with
  | idle | moving _ | storing _ _ =>
    rw [hm] at hlap
    exact absurd trivial hlap
  | testing idx =>
    rw [hm, Mover.Unlapped] at hlap
    push Not at hlap
    obtain ⟨hfull, u, hu⟩ := hlap
    rw [Mover.movingAt_eq_some_iff] at hu
    have htu : t ≠ u := by
      rintro rfl
      rw [hm] at hu
      cases hu
    refine ⟨[u, t], not_safe_of_two_moving htu ?_ ((advance_mover_of_ne htu.symm).trans hu)⟩
    rw [advance_mover, hm, Mover.act, if_pos hfull]
  | holding buffer =>
    rw [hm, Mover.Unlapped] at hlap
    have hstoring : (advance (routes T) s t).mover t =
        .storing (s.pool ()).headFetchAdd.1 buffer := by
      rw [advance_mover, hm]
      rfl
    have hbuffers : ((advance (routes T) s t).pool ()).buffers = (s.pool ()).buffers := by
      rw [advance_pool, hm]
      rfl
    have hplaced : Placed (advance (routes T) s t).content {x | x ∈ xs} :=
      placed_advance h.placed fun _ _ ↦ h.store_vacant
    by_cases hvacant : (s.pool ()).buffers (s.pool ()).headFetchAdd.1 = none
    · push Not at hlap
      obtain ⟨u, hu⟩ := hlap hvacant
      obtain ⟨buffer', hu⟩ := Mover.storingAt_eq_some_iff.mp hu
      have htu : t ≠ u := by
        rintro rfl
        rw [hm] at hu
        cases hu
      have hentitled := h.entitled u
      rw [hu] at hentitled
      obtain ⟨x, rfl⟩ := Option.ne_none_iff_exists'.mp hentitled.2
      have hu' : (advance (routes T) s t).mover u = .storing _ (some x) :=
        (advance_mover_of_ne htu.symm).trans hu
      exact ⟨[u, t], not_safe_of_two_storing hplaced htu hstoring hu'
        ((congrFun hbuffers _).trans hvacant)⟩
    · obtain ⟨x, hx⟩ := Option.ne_none_iff_exists'.mp hvacant
      exact ⟨[t], not_safe_of_store hplaced hstoring ((congrFun hbuffers _).trans hx)⟩

/-! ## The pool of the source -/

/-- **Sharing is safe while nobody is lapped.** Any number of threads each repeat `Get` and `Put`
on one pool of distinct buffers. In every run whose steps are all unlapped each buffer is in
exactly one place and no `Get` returns null; and from there every step that is not unlapped can be
continued to a state where this fails. -/
theorem safe_while_unlapped {pool : CircularBufferPool bufferPoolSize β} {lo : ℕ}
    (hpool : pool.Tracks lo xs 0 0) (hxs : xs.Nodup) {as : List T}
    {s : State bufferPoolSize Unit T β}
    (hrun : (machine bufferPoolSize β (routes T)).run (start T pool) as = some s)
    (hun : (machine bufferPoolSize β (routes T)).Along Unlapped (start T pool) as) :
    Safe xs s ∧ ∀ t, ¬ Unlapped s t →
      ∃ bs s', (machine bufferPoolSize β (routes T)).run s (t :: bs) = some s' ∧ ¬ Safe xs s' := by
  have hI := (exclusive_start hpool hxs).run hun hrun
  refine ⟨hI.safe, fun t ht ↦ ?_⟩
  obtain ⟨bs, hbs⟩ := exists_not_safe hI ht
  exact ⟨bs, _, run_eq_after s (t :: bs), hbs⟩

/-- A pool with a buffer in every slot. -/
def full : CircularBufferPool bufferPoolSize ℕ := ⟨fun idx ↦ some idx.val, 1024 * 8, 0⟩

theorem tracks_full : full.Tracks 0 (List.range bufferPoolSize) 0 0 := by
  refine ⟨⟨?_, fun k hk ↦ ?_⟩, ?_, rfl⟩
  · rw [List.length_range]
  · change some ((0 + k) % bufferPoolSize) = _
    rw [List.getElem?_range hk, Nat.zero_add, Nat.mod_eq_of_lt hk]
  · rw [List.length_range]
    rfl

/-- The first thread draws its ticket of `Get` and is delayed; the second gets a buffer. -/
def delayed : List Bool := [false, true, true, true]

theorem safe_delayed :
    ∃ s, (machine bufferPoolSize ℕ (routes Bool)).run (start Bool full) delayed = some s ∧
      Safe (List.range bufferPoolSize) s :=
  ⟨_, run_eq_after _ _, (safe_while_unlapped tracks_full List.nodup_range (run_eq_after _ delayed)
    (by decide +kernel)).1⟩

/-- The second thread then puts its buffer back: it draws the index of the first thread's slot, and
stores over the buffer there, which is then nowhere. -/
theorem lapped_loses_buffer :
    ∃ s, (machine bufferPoolSize ℕ (routes Bool)).run (start Bool full)
        (delayed ++ [true, true]) = some s ∧
      (∀ p, s.content p ≠ some 0) ∧ ¬ Safe (List.range bufferPoolSize) s := by
  have hI : Exclusive {x | x ∈ List.range bufferPoolSize}
      (after (routes Bool) (start Bool full) delayed) :=
    (exclusive_start tracks_full List.nodup_range).run (by decide +kernel) (run_eq_after _ delayed)
  have hplaced : Placed (after (routes Bool) (start Bool full) (delayed ++ [true])).content
      {x | x ∈ List.range bufferPoolSize} := by
    rw [after_concat]
    exact placed_advance hI.placed fun _ _ ↦ hI.store_vacant
  have hstoring :
      ((after (routes Bool) (start Bool full) (delayed ++ [true])).mover true).storingAt =
        some 0 := by
    decide +kernel
  have hslot : ((after (routes Bool) (start Bool full) (delayed ++ [true])).pool ()).buffers 0 =
      some 0 := by
    decide +kernel
  obtain ⟨buffer, hm⟩ := Mover.storingAt_eq_some_iff.mp hstoring
  have hgone := gone_of_store hplaced hm hslot
  refine ⟨_, run_eq_after _ _, hgone, fun hsafe ↦ ?_⟩
  obtain ⟨p, hp, -⟩ := hsafe.1 0 (List.mem_range.mpr (by decide))
  exact hgone p hp

end Sharing

end FulgurLogging
