import FulgurLogging.BufferPool.Circulation
import FulgurLogging.Lib.Progress

/-!
# Circulation does not stall

Each of two threads that feed each other waits in `Get` until the other has stored. Both cannot
wait for long: a buffer that is in neither hand is in one of the pools, and the thread that takes
from there finds it. How many buffers there are does not matter, as long as there is one.
-/

namespace FulgurLogging

open Ring Transition Traffic

namespace Mover

variable {size : ℕ} {β : Type*}

/-- The accesses that are left before the store, if none of them has to be repeated. -/
def left : Mover size β → ℕ
  | idle => 4
  | testing _ => 3
  | moving _ => 2
  | holding _ => 1
  | storing .. => 0

/-- About to store. -/
def stores : Mover size β → Bool
  | storing .. => true
  | _ => false

end Mover

namespace Circulation

variable {size : ℕ} [NeZero size] {β : Type*} {N : ℕ} {s : State size Side Side β} {t u : Side}

/-- Past the loop of `Get`, or with something to find in it. -/
def Able (t : Side) (s : State size Side Side β) : Prop :=
  (s.mover t).left ≤ 2 ∨ ∃ idx b, (s.pool t).buffers idx = some b

theorem Circulates.exists_able {lo : Side → ℕ} {xs : Side → List β} (h : Circulates N s lo xs)
    (hN : 0 < N) : ∃ t, Able t s := by
  by_contra hnone
  push Not at hnone
  have hempty (t : Side) : (xs t).length = 0 ∧ (s.mover t).load = 0 := by
    have ht := hnone t
    rw [Able, not_or, not_exists] at ht
    refine ⟨?_, ?_⟩
    · cases hxs : xs t with
      | nil => rfl
      | cons b bs =>
        have hslot := (h.tracks t).window.eq_some_iff.mpr ⟨0, by rw [hxs]; rfl, rfl⟩
        exact absurd ⟨b, hslot⟩ (ht.2 _)
    · cases hm : s.mover t with
      | holding => exact absurd (by rw [hm, Mover.left]; decide) ht.1
      | storing => exact absurd (by rw [hm, Mover.left]; decide) ht.1
      | _ => rfl
  have hcount := h.count .a
  have ha := hempty .a
  have hb := hempty .b
  rw [Side.other] at hcount
  omega

/-- An access that neither moves a buffer out nor stores one. -/
theorem buffers_advance (hmove : ∀ idx, s.mover u ≠ .moving idx)
    (hstore : (s.mover u).stores = false) (t : Side) :
    ((advance routes s u).pool t).buffers = (s.pool t).buffers := by
  have hcontent := content_advance (r := routes) hmove fun idx buffer hm ↦ by
    rw [hm] at hstore
    cases hstore
  exact funext fun idx ↦ congrFun hcontent (.slot t idx)

/-- A step of the thread itself. -/
theorem Circulates.own {lo : Side → ℕ} {xs : Side → List β} (h : Circulates N s lo xs)
    (hable : Able t s) (hstore : (s.mover t).stores = false) :
    Able t (Traffic.advance routes s t) ∧
      ((Traffic.advance routes s t).mover t).left < (s.mover t).left := by
  have hself : (Traffic.advance routes s t).mover t = _ := advance_mover_self
  cases hm : s.mover t with
  | idle =>
    rw [hm, Mover.act] at hself
    rw [Able, hm, Mover.left, or_iff_right (by decide)] at hable
    have hmove (idx : Fin size) : s.mover t ≠ .moving idx := by
      rw [hm]
      exact fun hc ↦ by cases hc
    rw [Able, buffers_advance hmove hstore, hself]
    exact ⟨.inr hable, Nat.lt_succ_self 3⟩
  | testing idx =>
    have hidx := h.fits t
    rw [hm] at hidx
    rw [Able, hm, Mover.left, or_iff_right (by decide)] at hable
    obtain ⟨i, b, hslot⟩ := hable
    have hne : xs t ≠ [] := by
      rintro hnil
      have hwindow := (h.tracks t).window
      rw [hnil] at hwindow
      rw [hwindow.eq_none] at hslot
      cases hslot
    have hholds := (h.tracks t).holdsBuffer_front
    have htouched : touched routes s t = t := by
      rw [touched, hm]
      rfl
    rw [hm, Mover.act, htouched, hidx, hholds, List.isEmpty_eq_false_iff.mpr hne] at hself
    rw [Able, hself]
    exact ⟨.inl le_rfl, Nat.lt_succ_self 2⟩
  | moving idx =>
    rw [hm, Mover.act] at hself
    rw [Able, hself]
    exact ⟨.inl (Nat.le_succ 1), Nat.lt_succ_self 1⟩
  | holding buffer =>
    rw [hm, Mover.act] at hself
    rw [Able, hself]
    exact ⟨.inl (Nat.zero_le 2), Nat.one_pos⟩
  | storing idx buffer =>
    rw [hm] at hstore
    cases hstore

/-- A step of the other thread, which takes from the other pool. -/
theorem Able.other (hable : Able t s) (hne : u ≠ t) (hstore : (s.mover u).stores = false) :
    Able t (advance routes s u) ∧
      ((advance routes s u).mover t).left ≤ (s.mover t).left := by
  have hmover : (advance routes s u).mover t = s.mover t := advance_mover_of_ne hne.symm
  have hbuffers : ((advance routes s u).pool t).buffers = (s.pool t).buffers := by
    by_cases hmove : ∃ idx, s.mover u = .moving idx
    · obtain ⟨idx, hm⟩ := hmove
      have htouched : touched routes s u = u := by
        rw [touched, hm]
        rfl
      rw [advance_pool_of_ne (by rw [htouched]; exact hne.symm)]
    · exact buffers_advance (fun idx hm ↦ hmove ⟨idx, hm⟩) hstore t
  rw [Able, hmover, hbuffers]
  exact ⟨hable, le_rfl⟩

theorem nonBlocking (β : Type*) (hsize : size ∣ 2 ^ 32) (hpos : 0 < N) (hN : N ≤ size) :
    NonBlocking (advance routes) (fun s t ↦ (s.mover t).stores) Able (fun t s ↦ (s.mover t).left) 5
      fun s : State size Side Side β ↦ ∃ lo xs, Circulates N s lo xs where
  invariant := fun _ t ⟨_, _, h⟩ ↦ h.advance hsize hN t
  exists_able := fun _ ⟨_, _, h⟩ ↦ h.exists_able hpos
  lt := fun s t ↦ by cases s.mover t <;> simp [Mover.left]
  own := fun _ _ ⟨_, _, h⟩ hable hstore ↦ h.own hable hstore
  other := fun _ _ _ _ hable hne hstore ↦ hable.other hne hstore

/-- **Circulation does not stall.** Two threads feed each other from pools with at least one buffer
in all, at any counter values. From wherever an interleaving has led, any further one stores at
least as often as there are parts of it in which both threads take five steps. -/
theorem circulation_does_not_stall {a b : CircularBufferPool bufferPoolSize β} {lo lo' : ℕ}
    {xs : List β} (ha : a.Tracks lo xs 0 0) (hb : b.Tracks lo' [] 0 0) (hxs : xs ≠ [])
    (before : List Side) {rounds : List (List Side)}
    (hrounds : ∀ ts ∈ rounds, ∀ t, 5 ≤ ts.count t) :
    rounds.length ≤ events (advance routes) (fun s t ↦ (s.mover t).stores)
      (after routes (start a b) before) rounds.flatten := by
  have hsize : bufferPoolSize ∣ 2 ^ 32 := by decide
  have h := nonBlocking β hsize (List.length_pos_iff_ne_nil.mpr hxs) ha.window.length_le
  exact h.length_le_events (h.foldl (circulates_start ha hb) before) hrounds

/-- With its only buffer passed on, the first thread waits for the second. -/
theorem circulation_does_not_stall_one_buffer :
    [[Side.a, .b, .a, .b, .a, .b, .a, .b, .a, .b]].length ≤
      events (advance routes) (fun s t ↦ (s.mover t).stores)
        (after routes (start ((CircularBufferPool.new bufferPoolSize ℕ).put (some 1)).2 (.new _ ℕ))
          [.a, .a, .a, .a, .a, .a])
        [[Side.a, .b, .a, .b, .a, .b, .a, .b, .a, .b]].flatten :=
  circulation_does_not_stall
    (CircularBufferPool.tracks_new.put (by decide) (by decide) 1)
    CircularBufferPool.tracks_new (List.cons_ne_nil 1 []) _
    (List.forall_mem_singleton.mpr fun t ↦ by cases t <;> decide)

end Circulation

end FulgurLogging
