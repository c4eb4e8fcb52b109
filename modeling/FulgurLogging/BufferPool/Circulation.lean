import FulgurLogging.BufferPool.Traffic

/-!
# Two pools that feed each other

One thread repeats `b.Put(a.Get())` and another `a.Put(b.Get())`. Nobody tests for room: that no
store overwrites a buffer is a conservation fact about both pools and both hands together. With `N`
buffers in all, a thread about to store has one of them in hand, so the pool it stores to holds at
most `N - 1`, which is below the size.

`Side` names a pool and at the same time the thread that takes from it, so that the two threads are
one definition and every statement is made once for both. The invariant `Circulates` keeps, for
each pool, the window of buffers it holds, and for each thread, that the index it carries is the
position at the end of the window it works on.
-/

namespace FulgurLogging

open Ring Transition Ownership Traffic

namespace Circulation

/-- One of the two pools, and the thread that takes from it. -/
inductive Side
  | a
  | b
  deriving DecidableEq

/-- The pool the thread puts to. -/
def Side.other : Side → Side
  | a => b
  | b => a

@[simp] theorem Side.other_ne (t : Side) : t.other ≠ t := by cases t <;> decide

@[simp] theorem Side.other_other (t : Side) : t.other.other = t := by cases t <;> rfl

/-- Each thread takes from its own pool and puts to the other. -/
def routes : Routes Side Side := ⟨id, Side.other⟩

variable {size : ℕ} [NeZero size] {β : Type*}

/-- The two pools, and both threads between two rounds. -/
def start (a b : CircularBufferPool size β) : State size Side Side β :=
  Traffic.start fun t ↦ match t with | .a => a | .b => b

/-! ## The invariant -/

/-- The pools' contents, tied to the counters, the threads' program points and the number of
buffers. -/
structure Circulates (N : ℕ) (s : State size Side Side β) (lo : Side → ℕ) (xs : Side → List β) :
    Prop where
  tracks : ∀ t, (s.pool t).Tracks (lo t) (xs t) (s.mover t.other).putTickets (s.mover t).getTickets
  fits : ∀ t, (s.mover t).Fits (lo t) (xs t) (lo t.other + (xs t.other).length)
  count : ∀ t, (xs t).length + (xs t.other).length + (s.mover t).load + (s.mover t.other).load = N

/-- A thread that carries a buffer leaves room for it in every pool. -/
theorem Circulates.length_lt {N : ℕ} {s : State size Side Side β} {lo : Side → ℕ}
    {xs : Side → List β} (h : Circulates N s lo xs) (hN : N ≤ size) {t : Side}
    (hm : (s.mover t).taking = false) : (xs t.other).length < size := by
  have hcount := h.count t
  have hload : (s.mover t).load = 1 := by
    cases hc : s.mover t <;> rw [hc] at hm <;> first | rfl | cases hm
  omega

section Step

variable {N : ℕ} {s : State size Side Side β} {lo : Side → ℕ} {xs : Side → List β} {t : Side}
  {pool : CircularBufferPool size β} {m : Mover size β}

/-- The thread has made an access of `Get`, which leaves the end of the window where it was. -/
theorem Circulates.take {lo' : ℕ} {xs' : List β} (h : Circulates N s lo xs)
    (htracks : pool.Tracks lo' xs' (s.mover t.other).putTickets m.getTickets)
    (hput : m.putTickets = (s.mover t).putTickets)
    (hfits : m.Fits lo' xs' (lo t.other + (xs t.other).length))
    (hend : lo' + xs'.length = lo t + (xs t).length)
    (hload : xs'.length + m.load = (xs t).length + (s.mover t).load) :
    Circulates N ⟨Function.update s.pool t pool, Function.update s.mover t m⟩
      (Function.update lo t lo') (Function.update xs t xs') := by
  have htracks' := h.tracks t.other
  have hfits' := h.fits t.other
  have hcount := h.count t
  cases t <;> refine ⟨fun u ↦ ?_, fun u ↦ ?_, fun u ↦ ?_⟩ <;> cases u <;>
    simp_all [Side.other, Function.update] <;> omega

/-- The thread has made an access of `Put`, which adds to the end of the other pool's window. -/
theorem Circulates.give {ys : List β} (h : Circulates N s lo xs)
    (htracks : pool.Tracks (lo t.other) (xs t.other ++ ys) m.putTickets
      (s.mover t.other).getTickets)
    (hget : m.getTickets = (s.mover t).getTickets)
    (hfits : m.Fits (lo t) (xs t) (lo t.other + (xs t.other ++ ys).length))
    (hload : ys.length + m.load = (s.mover t).load) :
    Circulates N ⟨Function.update s.pool t.other pool, Function.update s.mover t m⟩
      lo (Function.update xs t.other (xs t.other ++ ys)) := by
  have htracks' := h.tracks t
  have hcount := h.count t
  have hfits' := (h.fits t.other).append ys
  cases t <;> refine ⟨fun u ↦ ?_, fun u ↦ ?_, fun u ↦ ?_⟩ <;> cases u <;>
    simp_all [Side.other, Function.update] <;> omega

/-- **The step lemma.** Whichever thread moves, the buffers stay accounted for. -/
theorem Circulates.advance (hsize : size ∣ 2 ^ 32) (hN : N ≤ size) (h : Circulates N s lo xs)
    (t : Side) : ∃ lo' xs', Circulates N (advance routes s t) lo' xs' := by
  cases hm : (s.mover t).taking with
  | true =>
    obtain ⟨lo', xs', htracks, hfits, hend, hload, hput⟩ :=
      Mover.act_take hsize hm (h.tracks t) (h.fits t)
    simp only [Traffic.advance, touched, routes, id_eq, hm, if_true]
    exact ⟨_, _, h.take htracks hput hfits hend hload⟩
  | false =>
    have htarget := h.tracks t.other
    rw [Side.other_other] at htarget
    obtain ⟨ys, htracks, hfits, hload, hget⟩ :=
      Mover.act_give hsize hm htarget (h.fits t) (h.length_lt hN hm)
    simp only [Traffic.advance, touched, routes, id_eq, hm, Bool.false_eq_true, if_false]
    exact ⟨_, _, h.give htracks hget hfits hload⟩

end Step

theorem circulates_start {a b : CircularBufferPool size β} {lo lo' : ℕ} {xs : List β}
    (ha : a.Tracks lo xs 0 0) (hb : b.Tracks lo' [] 0 0) :
    ∃ l x, Circulates xs.length (start a b) l x := by
  refine ⟨fun t ↦ match t with | .a => lo | .b => lo', fun t ↦ match t with | .a => xs | .b => [],
    ⟨?_, fun _ ↦ trivial, ?_⟩⟩
  · rintro (_ | _)
    · exact ha
    · exact hb
  · rintro (_ | _) <;> simp [Side.other, start, Traffic.start, Mover.load]

/-! ## Conservation -/

/-- The counters agree with the windows, and every buffer is in exactly one place. -/
structure Conserved (N : ℕ) (tokens : Set β) (s : State size Side Side β) : Prop where
  circulates : ∃ lo xs, Circulates N s lo xs
  placed : Placed s.content tokens

section Conserved

variable {N : ℕ} {tokens : Set β} {s : State size Side Side β}

theorem Conserved.store_vacant (h : Conserved N tokens s) (hN : N ≤ size) {t : Side}
    {idx : Fin size} {buffer : Option β} (hm : s.mover t = .storing idx buffer) :
    (s.pool t.other).buffers idx = none := by
  obtain ⟨lo, xs, hI⟩ := h.circulates
  have hlt : (xs t.other).length < size := hI.length_lt hN (by rw [hm]; rfl)
  have hfits := hI.fits t
  rw [hm] at hfits
  rw [hfits.1]
  exact (hI.tracks t.other).window.vacant hlt

theorem Conserved.ne_none (h : Conserved N tokens s) {t : Side} {buffer : Option β}
    (hm : s.mover t = .holding buffer) : buffer ≠ none := by
  obtain ⟨lo, xs, hI⟩ := h.circulates
  have hfits := hI.fits t
  rwa [hm] at hfits

theorem Conserved.advance (hsize : size ∣ 2 ^ 32) (hN : N ≤ size) (h : Conserved N tokens s)
    (t : Side) : Conserved N tokens (advance routes s t) := by
  obtain ⟨lo, xs, hI⟩ := h.circulates
  exact ⟨hI.advance hsize hN t, placed_advance h.placed fun _ _ hm ↦ h.store_vacant hN hm⟩

/-- **The run lemma.** -/
theorem Conserved.run (hsize : size ∣ 2 ^ 32) (hN : N ≤ size) {as : List Side}
    {s' : State size Side Side β} (hs : Conserved N tokens s)
    (h : (machine size β routes).run s as = some s') :
    Conserved N tokens s' := by
  refine Machine.Preserves.run (I := Conserved N tokens) (fun s s' t hI hstep ↦ ?_) hs h
  rw [machine, Option.some_inj] at hstep
  exact hstep ▸ hI.advance hsize hN t

theorem conserved_start {a b : CircularBufferPool size β} {lo lo' : ℕ} {xs : List β}
    (ha : a.Tracks lo xs 0 0) (hb : b.Tracks lo' [] 0 0) (hxs : xs.Nodup) :
    Conserved xs.length {x | x ∈ xs} (start a b) := by
  refine ⟨circulates_start ha hb, placed_start (p := .a) (ha.window.placed hxs) ?_⟩
  rintro (_ | _) hne idx
  · exact absurd rfl hne
  · exact hb.window.eq_none idx

end Conserved

/-! ## One loop after the other -/

/-- `for (i = 0; i < n; i++) target->Put(source->Get())`, and `none` when a `Get` never returns. -/
def moveAll : ℕ → CircularBufferPool size β → CircularBufferPool size β →
    Option (CircularBufferPool size β × CircularBufferPool size β)
  | 0, source, target => some (source, target)
  | n + 1, source, target =>
    source.get.bind fun r ↦ moveAll n r.2 (target.put r.1).2

/-- The loop carries the front of one window to the end of the other, in order. -/
theorem moveAll_tracks (hsize : size ∣ 2 ^ 32) {xs : List β} :
    ∀ {ys zs : List β} {lo lo' : ℕ} {source target : CircularBufferPool size β},
      source.Tracks lo (xs ++ ys) 0 0 → target.Tracks lo' zs 0 0 → zs.length + xs.length ≤ size →
      ∃ source' target', moveAll xs.length source target = some (source', target') ∧
        source'.Tracks (lo + xs.length) ys 0 0 ∧ target'.Tracks lo' (zs ++ xs) 0 0 := by
  induction xs with
  | nil =>
    intro ys zs lo lo' source target hs ht _
    exact ⟨source, target, rfl, hs, by rwa [List.append_nil]⟩
  | cons x xs ih =>
    intro ys zs lo lo' source target hs ht hroom
    rw [List.length_cons] at hroom
    obtain ⟨source', hget, hs'⟩ := hs.get hsize
    have ht' := ht.put hsize (by omega) x
    obtain ⟨source'', target'', hall, hs'', ht''⟩ := ih hs' ht' (by simp; omega)
    refine ⟨source'', target'', ?_, ?_, ?_⟩
    · rw [List.length_cons, moveAll, hget, Option.bind_some, hall]
    · rw [List.length_cons, Nat.add_comm xs.length, ← Nat.add_assoc]
      exact hs''
    · rwa [List.append_assoc, List.singleton_append] at ht''

/-- **Circulation needs no capacity check.** Start with `a` holding the distinct buffers `xs`, at
most one per slot, and `b` empty, at any counter values. However the two threads interleave, each
buffer stays in exactly one place, no store finds a slot in use and no `Get` returns null; and the
two loops run one after the other leave `a` holding the same buffers in the same order. -/
theorem circulation_needs_no_capacity_check {a b : CircularBufferPool bufferPoolSize β}
    {lo lo' : ℕ} {xs : List β} (ha : a.Tracks lo xs 0 0) (hb : b.Tracks lo' [] 0 0)
    (hxs : xs.Nodup) :
    (∀ (as : List Side) (s : State bufferPoolSize Side Side β),
      (machine bufferPoolSize β routes).run (start a b) as = some s →
        (∀ x ∈ xs, ∃! p, s.content p = some x) ∧
        (∀ t idx buffer, s.mover t = .storing idx buffer → (s.pool t.other).buffers idx = none) ∧
        (∀ t buffer, s.mover t = .holding buffer → buffer ≠ none)) ∧
      ∃ a₁ b₁ a₂ b₂, moveAll xs.length a b = some (a₁, b₁) ∧
        moveAll xs.length b₁ a₁ = some (b₂, a₂) ∧
        a₂.Tracks (lo + xs.length) xs 0 0 ∧ b₂.Tracks (lo' + xs.length) [] 0 0 := by
  have hsize : bufferPoolSize ∣ 2 ^ 32 := by decide
  have hN : xs.length ≤ bufferPoolSize := ha.window.length_le
  refine ⟨fun as s h ↦ ?_, ?_⟩
  · have hI := (conserved_start ha hb hxs).run hsize hN h
    exact ⟨fun x hx ↦ hI.placed.existsUnique hx, fun _ _ _ ↦ hI.store_vacant hN,
      fun _ _ ↦ hI.ne_none⟩
  · rw [← List.append_nil xs] at ha
    obtain ⟨a₁, b₁, hab, ha₁, hb₁⟩ := moveAll_tracks hsize ha hb (by simpa using hN)
    rw [List.nil_append, ← List.append_nil xs] at hb₁
    obtain ⟨b₂, a₂, hba, hb₂, ha₂⟩ := moveAll_tracks hsize hb₁ ha₁ (by simpa using hN)
    exact ⟨a₁, b₁, a₂, b₂, hab, hba, ha₂, hb₂⟩

/-- A pool after the `Put`s of the buffers `1` and `2`. -/
def pair : CircularBufferPool bufferPoolSize ℕ :=
  (((CircularBufferPool.new _ ℕ).put (some 1)).2.put (some 2)).2

/-- The second thread waits on the empty pool until the first has passed a buffer on. -/
def passing : List Side := [.a, .b, .a, .b, .a, .a, .a, .b, .b]

theorem circulation_passing :
    ∃ s, (machine bufferPoolSize ℕ routes).run (start pair (.new _ ℕ)) passing = some s ∧
      (s.mover .b).hand = some 1 ∧ ∃! p, s.content p = some 2 := by
  have hpair : pair.Tracks 0 [1, 2] 0 0 :=
    (CircularBufferPool.tracks_new.put (by decide) (by decide) 1).put (by decide) (by decide) 2
  have hrun : ((machine bufferPoolSize ℕ routes).run (start pair (.new _ ℕ)) passing).any
      (fun s ↦ (s.mover .b).hand = some 1) = true := by decide +kernel
  obtain ⟨s, hs, hhand⟩ := (Option.any_eq_true _ _).mp hrun
  have h := circulation_needs_no_capacity_check hpair CircularBufferPool.tracks_new (by decide)
  exact ⟨s, hs, of_decide_eq_true hhand, (h.1 passing s hs).1 2 (by decide)⟩

end Circulation

end FulgurLogging
