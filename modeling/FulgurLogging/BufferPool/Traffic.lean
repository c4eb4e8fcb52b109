import FulgurLogging.BufferPool.Mover
import FulgurLogging.Lib.Machine
import FulgurLogging.Lib.Placement

/-!
# Threads that pass buffers between pools

Any number of threads and any number of pools. Each thread repeats `target.Put(source.Get())` for a
source and a target of its own, which may be the same pool. An interleaving is a list of threads,
each making its next access to shared memory.

A buffer is in a slot of a pool or in the hand of a thread. An access moves one buffer or none:
`Get` moves it from a slot to a hand when it empties the slot, and `Put` from a hand to a slot when
it stores. The first always is a move to a vacant place. The second is one only if the slot is
null, and what the threads have to guarantee is just that.
-/

namespace FulgurLogging

open Ring Transition Ownership

namespace Traffic

/-- Which pool each thread takes from and which it puts to. -/
structure Routes (P T : Type*) where
  source : T → P
  target : T → P

structure State (size : ℕ) (P T β : Type*) where
  pool : P → CircularBufferPool size β
  mover : T → Mover size β

variable {size : ℕ} {P T β : Type*}

/-- Every thread between two rounds. -/
def start (pool : P → CircularBufferPool size β) : State size P T β := ⟨pool, fun _ ↦ .idle⟩

/-! ## Where the buffers are -/

/-- A slot of a pool, or the hand of a thread. -/
inductive Place (size : ℕ) (P T : Type*)
  | slot (p : P) (idx : Fin size)
  | hand (t : T)

/-- What a place holds. -/
def State.content (s : State size P T β) : Place size P T → Option β
  | .slot p idx => (s.pool p).buffers idx
  | .hand t => (s.mover t).hand

/-- Before the first access, the buffers are where they are in the pools. -/
theorem placed_start {tokens : Set β} {pool : P → CircularBufferPool size β} {p : P}
    (h : Placed (pool p).buffers tokens)
    (hempty : ∀ q, q ≠ p → ∀ idx, (pool q).buffers idx = none) :
    Placed (start (T := T) pool).content tokens := by
  refine h.of_comp (f := Place.slot p) (fun _ ↦ rfl) ?_
  rintro (⟨q, i⟩ | u) x hp
  · by_cases hq : q = p
    · exact ⟨i, by rw [hq]⟩
    · exact absurd hp (by rw [State.content, start, hempty q hq]; exact nofun)
  · exact absurd hp (by simp [State.content, start, Mover.hand])

/-! ## Accesses -/

variable [NeZero size] [DecidableEq P] [DecidableEq T] {r : Routes P T} {s : State size P T β}
  {t u : T}

/-- The pool the thread's next access goes to. -/
def touched (r : Routes P T) (s : State size P T β) (t : T) : P :=
  if (s.mover t).taking then r.source t else r.target t

/-- The next access of one thread. -/
def advance (r : Routes P T) (s : State size P T β) (t : T) : State size P T β :=
  let done := (s.mover t).act (s.pool (touched r s t))
  ⟨Function.update s.pool (touched r s t) done.1, Function.update s.mover t done.2⟩

def machine (size : ℕ) [NeZero size] (β : Type*) (r : Routes P T) :
    Machine (State size P T β) T := ⟨fun s t ↦ some (advance r s t)⟩

@[simp] theorem machine_step : (machine size β r).step s t = some (advance r s t) := rfl

/-- The state an interleaving leads to. -/
def after (r : Routes P T) (s : State size P T β) (as : List T) : State size P T β :=
  as.foldl (advance r) s

theorem after_cons (as : List T) : after r s (t :: as) = after r (advance r s t) as := rfl

theorem after_concat (as : List T) (t : T) : after r s (as ++ [t]) = advance r (after r s as) t :=
  List.foldl_concat _ _ _ _

/-- Every access is enabled, so every list of threads is an interleaving. -/
theorem run_eq_after (s : State size P T β) (as : List T) :
    (machine size β r).run s as = some (after r s as) := by
  induction as generalizing s with
  | nil => rfl
  | cons t as ih => rw [Machine.run_cons_of_step machine_step, ih, after_cons]

theorem advance_pool_touched :
    (advance r s t).pool (touched r s t) = ((s.mover t).act (s.pool (touched r s t))).1 :=
  Function.update_self _ _ _

theorem advance_pool_of_ne {p : P} (h : p ≠ touched r s t) :
    (advance r s t).pool p = s.pool p := Function.update_of_ne h _ _

theorem advance_mover_self :
    (advance r s t).mover t = ((s.mover t).act (s.pool (touched r s t))).2 :=
  Function.update_self _ _ _

theorem advance_mover_of_ne (h : u ≠ t) : (advance r s t).mover u = s.mover u :=
  Function.update_of_ne h _ _

/-! ## What an access moves -/

/-- `Get` moves a buffer from its slot to the thread's hand. -/
theorem moves_take {idx : Fin size} (hm : s.mover t = .moving idx) :
    Moves s.content (advance r s t).content (.slot (r.source t) idx) (.hand t) := by
  simp only [advance, touched, hm, Mover.taking, if_true, Mover.act]
  refine ⟨by rw [State.content, hm]; rfl, ?_, ?_, ?_⟩
  · simp [State.content, Mover.hand]
  · simp [State.content]
  · rintro (⟨p, i⟩ | u) hsrc htgt
    · by_cases hp : p = r.source t
      · subst hp
        have hi : i ≠ idx := fun hc ↦ hsrc (by rw [hc])
        simp [State.content, hi]
      · simp [State.content, hp]
    · have hu : u ≠ t := fun hc ↦ htgt (by rw [hc])
      simp [State.content, hu]

/-- `Put` moves a buffer from the thread's hand to a vacant slot. -/
theorem moves_give {idx : Fin size} {buffer : Option β} (hm : s.mover t = .storing idx buffer)
    (hvacant : (s.pool (r.target t)).buffers idx = none) :
    Moves s.content (advance r s t).content (.hand t) (.slot (r.target t) idx) := by
  simp only [advance, touched, hm, Mover.taking, Bool.false_eq_true, if_false, Mover.act]
  refine ⟨hvacant, ?_, ?_, ?_⟩
  · simp [State.content, Mover.hand, hm]
  · simp [State.content, Mover.hand]
  · rintro (⟨p, i⟩ | u) hsrc htgt
    · by_cases hp : p = r.target t
      · subst hp
        have hi : i ≠ idx := fun hc ↦ htgt (by rw [hc])
        simp [State.content, hi]
      · simp [State.content, hp]
    · have hu : u ≠ t := fun hc ↦ hsrc (by rw [hc])
      simp [State.content, hu]

/-- No other access moves a buffer. -/
theorem content_advance (hmove : ∀ idx, s.mover t ≠ .moving idx)
    (hstore : ∀ idx buffer, s.mover t ≠ .storing idx buffer) :
    (advance r s t).content = s.content := by
  obtain ⟨hbuffers, hhand⟩ := Mover.act_quiet (s.pool (touched r s t)) hmove hstore
  funext p
  rcases p with ⟨p, i⟩ | u
  · rw [State.content, State.content]
    by_cases hp : p = touched r s t
    · rw [hp, advance_pool_touched, hbuffers]
    · rw [advance_pool_of_ne hp]
  · rw [State.content, State.content]
    by_cases hu : u = t
    · rw [hu, advance_mover_self, hhand]
    · rw [advance_mover_of_ne hu]

/-- **Conservation, one access at a time.** If a store finds its slot null, every buffer stays in
exactly one place. -/
theorem placed_advance {tokens : Set β} (h : Placed s.content tokens)
    (hvacant : ∀ idx buffer, s.mover t = .storing idx buffer →
      (s.pool (r.target t)).buffers idx = none) :
    Placed (advance r s t).content tokens := by
  cases hm : s.mover t with
  | moving idx => exact h.moves (moves_take hm)
  | storing idx buffer => exact h.moves (moves_give hm (hvacant idx buffer hm))
  | idle | testing _ | holding _ =>
    rw [content_advance (by rw [hm]; exact nofun) (by rw [hm]; exact nofun)]
    exact h

end Traffic

end FulgurLogging
