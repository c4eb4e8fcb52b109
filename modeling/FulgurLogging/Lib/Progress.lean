import Mathlib.Data.List.Count
import Mathlib.Data.Bool.Count

/-!
# Progress of a system of threads

Threads that wait for one another in loops never stop, and no single one of them need ever get
ahead. What can be shown of every schedule is that the system does: in a `NonBlocking` system some
thread is always able to go on, its steps bring it nearer to an event, and another thread takes
that from it by an event of its own only. So there is an event in every part of a schedule that
gives each thread its share.
-/

namespace Transition

variable {σ T : Type*}

/-- The steps of a schedule that are events. -/
def events (step : σ → T → σ) (event : σ → T → Bool) : σ → List T → ℕ
  | _, [] => 0
  | s, t :: ts => (event s t).toNat + events step event (step s t) ts

/-- In the states satisfying `I`, a thread that is able to go on is less than `n` steps of its own
away from an event. -/
structure NonBlocking (step : σ → T → σ) (event : σ → T → Bool) (able : T → σ → Prop)
    (distance : T → σ → ℕ) (n : ℕ) (I : σ → Prop) : Prop where
  invariant : ∀ s t, I s → I (step s t)
  exists_able : ∀ s, I s → ∃ t, able t s
  lt : ∀ s t, distance t s < n
  own : ∀ s t, I s → able t s → event s t = false →
    able t (step s t) ∧ distance t (step s t) < distance t s
  other : ∀ s t u, I s → able t s → u ≠ t → event s u = false →
    able t (step s u) ∧ distance t (step s u) ≤ distance t s

namespace NonBlocking

variable {step : σ → T → σ} {event : σ → T → Bool} {able : T → σ → Prop} {distance : T → σ → ℕ}
  {n : ℕ} {I : σ → Prop}

theorem events_append (s : σ) (ts us : List T) :
    events step event s (ts ++ us) =
      events step event s ts + events step event (ts.foldl step s) us := by
  induction ts generalizing s with
  | nil => exact (Nat.zero_add _).symm
  | cons t ts ih => rw [List.cons_append, events, events, ih, List.foldl_cons, Nat.add_assoc]

theorem foldl (h : NonBlocking step event able distance n I) {s : σ} (hs : I s) (ts : List T) :
    I (ts.foldl step s) := by
  induction ts generalizing s with
  | nil => exact hs
  | cons t ts ih => exact ih (h.invariant s t hs)

variable [DecidableEq T]

/-- A thread that is able to go on, and gets the steps for it. -/
theorem events_pos_of_able (h : NonBlocking step event able distance n I) {ts : List T} {s : σ}
    {t : T} (hs : I s) (ht : able t s) (hcount : distance t s < ts.count t) :
    0 < events step event s ts := by
  induction ts generalizing s with
  | nil => exact absurd hcount (Nat.not_lt_zero _)
  | cons u ts ih =>
    rw [events]
    cases hevent : event s u with
    | true => exact Nat.add_pos_left Nat.one_pos _
    | false =>
      refine Nat.add_pos_right _ ?_
      by_cases hu : u = t
      · subst hu
        obtain ⟨hable, hlt⟩ := h.own s u hs ht hevent
        rw [List.count_cons_self] at hcount
        exact ih (h.invariant s u hs) hable (by omega)
      · obtain ⟨hable, hle⟩ := h.other s t u hs ht hu hevent
        rw [List.count_cons_of_ne hu] at hcount
        exact ih (h.invariant s u hs) hable (hle.trans_lt hcount)

/-- **The progress rule.** There are as many events as there are parts of the schedule in which
every thread takes `n` steps. -/
theorem length_le_events (h : NonBlocking step event able distance n I) {rounds : List (List T)}
    {s : σ} (hs : I s) (hrounds : ∀ ts ∈ rounds, ∀ t, n ≤ ts.count t) :
    rounds.length ≤ events step event s rounds.flatten := by
  induction rounds generalizing s with
  | nil => exact Nat.zero_le _
  | cons ts rounds ih =>
    obtain ⟨t, ht⟩ := h.exists_able s hs
    have hpos := h.events_pos_of_able hs ht
      ((h.lt s t).trans_le (hrounds ts List.mem_cons_self t))
    have hrest := ih (h.foldl hs ts) fun us hus ↦ hrounds us (List.mem_cons_of_mem ts hus)
    rw [List.flatten_cons, events_append, List.length_cons]
    omega

end NonBlocking

end Transition
