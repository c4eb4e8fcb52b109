import FulgurLogging.Lib.Swap
import FulgurLogging.LogRecord.GetInfo

/-!
# Updating an `ItemPointer` at once

`AtomicUpdateItemPointer` reads the block and the offset of a pointer as one word and swaps them as
one word. The compare and swap is that of `Lib/Swap`, on words; read back as pointers, it is one on
pointers, so that no thread ever sees the block of one update with the offset of another.

The word to compare with is loaded by the function itself, a step before the swap. What it returns
says whether another thread came in between, and only if no pointer is stored twice.
-/

namespace FulgurLogging

open Transition

/-- `reinterpret_cast<int64_t*>`: the block lies below the offset. -/
def ItemPointer.toWord (p : ItemPointer) : UInt64 :=
  p.block.toUInt64 ||| (p.offset.toUInt64 <<< 32)

def ItemPointer.ofWord (w : UInt64) : ItemPointer :=
  ⟨w.toUInt32, (w >>> 32).toUInt32⟩

namespace ItemPointer

theorem toNat_toWord (p : ItemPointer) :
    p.toWord.toNat = p.block.toNat + p.offset.toNat * 2 ^ 32 := by
  have hb := p.block.toNat_lt
  have ho := p.offset.toNat_lt
  have h32 : (32 : UInt64).toNat % 64 = 32 := rfl
  rw [toWord, UInt64.toNat_or, UInt64.toNat_shiftLeft, UInt32.toNat_toUInt64,
    UInt32.toNat_toUInt64, h32, Nat.shiftLeft_eq, Nat.mod_eq_of_lt (by omega), Nat.or_comm,
    Nat.mul_comm, ← Nat.two_pow_add_eq_or_of_lt hb, Nat.add_comm]

theorem toNat_block_ofWord (w : UInt64) : (ofWord w).block.toNat = w.toNat % 2 ^ 32 := by
  rw [ofWord, UInt64.toNat_toUInt32]

theorem toNat_offset_ofWord (w : UInt64) : (ofWord w).offset.toNat = w.toNat / 2 ^ 32 := by
  have hw := w.toNat_lt
  have h32 : (32 : UInt64).toNat % 64 = 32 := rfl
  rw [ofWord, UInt64.toNat_toUInt32, UInt64.toNat_shiftRight, h32, Nat.shiftRight_eq_div_pow,
    Nat.mod_eq_of_lt (by omega)]

theorem ofWord_toWord (p : ItemPointer) : ofWord p.toWord = p := by
  have hb := p.block.toNat_lt
  refine ItemPointer.ext ?_ ?_
  · rw [← UInt32.toNat_inj, toNat_block_ofWord, toNat_toWord]
    omega
  · rw [← UInt32.toNat_inj, toNat_offset_ofWord, toNat_toWord]
    omega

theorem toWord_ofWord (w : UInt64) : (ofWord w).toWord = w := by
  rw [← UInt64.toNat_inj, toNat_toWord, toNat_block_ofWord, toNat_offset_ofWord]
  omega

theorem ofWord_inj {v w : UInt64} : ofWord v = ofWord w ↔ v = w :=
  (Function.LeftInverse.injective toWord_ofWord).eq_iff

end ItemPointer

namespace AtomicUpdateItemPointer

variable {T : Type*}

section Step

variable [DecidableEq T]

/-- A call loads `*cast_src_ptr` and `*cast_value_ptr`, and then does the compare and swap. -/
def step (s : Swap.State T UInt64) : Swap.Action T ItemPointer → Option (Swap.State T UInt64)
  | .load t value => Swap.step s (.load t value.toWord)
  | .swap t => Swap.step s (.swap t)

variable (T) in
def machine : Machine (Swap.State T UInt64) (Swap.Action T ItemPointer) := ⟨step⟩

end Step

/-- `*src_ptr` is `p`, and nobody updates it. -/
def init (p : ItemPointer) : Swap.State T UInt64 := Swap.init T p.toWord

/-- A call as its thread sees it, with pointers. -/
def call (c : Swap.Call UInt64) : Swap.Call ItemPointer :=
  ⟨.ofWord c.expected, .ofWord c.value, c.seen⟩

def returnOf (r : Swap.Return T UInt64) : Swap.Return T ItemPointer :=
  ⟨r.thread, r.success, call r.call⟩

def pointers (s : Swap.State T UInt64) : Swap.State T ItemPointer :=
  ⟨.ofWord s.cell, fun t ↦ (s.call t).map call, s.returned.map returnOf⟩

/-! ## Words as pointers -/

theorem pointers_init (p : ItemPointer) : pointers (init p) = Swap.init T p := by
  rw [init, pointers, Swap.init, ItemPointer.ofWord_toWord]
  rfl

theorem updates_map (returned : List (Swap.Return T UInt64)) :
    Swap.updates (returned.map returnOf) = (Swap.updates returned).map call := by
  induction returned with
  | nil => rfl
  | cons r returned ih =>
    obtain ⟨t, b, c⟩ := r
    cases b with
    | false => exact ih
    | true => exact congrArg (call c :: ·) ih

theorem call_loading (s : Swap.State T UInt64) (p : ItemPointer) :
    call (s.loading p.toWord) = (pointers s).loading p := by
  rw [Swap.State.loading, Swap.State.loading, call, ItemPointer.ofWord_toWord, pointers,
    updates_map, List.length_map]

variable [DecidableEq T]

theorem map_update (s : Swap.State T UInt64) (t : T) (o : Option (Swap.Call UInt64)) :
    (fun u ↦ (Function.update s.call t o u).map call) =
      Function.update (pointers s).call t (o.map call) :=
  funext fun u ↦ Function.apply_update (fun _ ↦ Option.map call) s.call t o u

theorem pointers_leave (s : Swap.State T UInt64) (t : T) (c : Swap.Call UInt64) (b : Bool)
    (w : UInt64) :
    pointers (s.leave t c b w) = (pointers s).leave t (call c) b (.ofWord w) := by
  rw [Swap.State.leave, Swap.State.leave, pointers, map_update, List.map_append]
  rfl

/-- **A step on words is one on pointers.** -/
theorem step_pointers {s s' : Swap.State T UInt64} {a : Swap.Action T ItemPointer}
    (h : step s a = some s') : Swap.step (pointers s) a = some (pointers s') := by
  cases a with
  | load t p =>
    have h : Swap.step s (.load t p.toWord) = some s' := h
    obtain ⟨u, w, ha, hc, rfl⟩ | ⟨u, c, ha, -⟩ | ⟨u, c, ha, -⟩ := Swap.step_cases h
    · cases ha
      have hnone : (pointers s).call t = none := Option.map_eq_none_iff.mpr hc
      have hmap := map_update s t (some (s.loading p.toWord))
      rw [Option.map_some, call_loading] at hmap
      simp only [Swap.step, hnone, ← hmap]
      rfl
    · cases ha
    · cases ha
  | swap t =>
    have h : Swap.step s (.swap t) = some s' := h
    obtain ⟨u, w, ha, -⟩ | ⟨u, c, ha, hc, heq, rfl⟩ | ⟨u, c, ha, hc, hne, rfl⟩ :=
      Swap.step_cases h
    · cases ha
    · cases ha
      have hsome : (pointers s).call t = some (call c) := Option.map_eq_some_iff.mpr ⟨c, hc, rfl⟩
      have hcell : (pointers s).cell = (call c).expected := ItemPointer.ofWord_inj.mpr heq
      simp only [Swap.step, hsome, if_pos hcell, pointers_leave]
      rfl
    · cases ha
      have hsome : (pointers s).call t = some (call c) := Option.map_eq_some_iff.mpr ⟨c, hc, rfl⟩
      have hcell : (pointers s).cell ≠ (call c).expected := mt ItemPointer.ofWord_inj.mp hne
      simp only [Swap.step, hsome, if_neg hcell, pointers_leave]
      rfl

theorem run_pointers {p : ItemPointer} {as : List (Swap.Action T ItemPointer)}
    {s : Swap.State T UInt64} (hrun : (machine T).run (init p) as = some s) :
    (Swap.machine T ItemPointer).run (Swap.init T p) as = some (pointers s) := by
  rw [← pointers_init]
  exact Machine.run_map (fun _ _ _ ↦ step_pointers) hrun

/-! ## What the callers see -/

/-- **Updates are atomic.** In every run, the calls that returned `true` lead from the first pointer
to the present one: each found the pointer that the one before it stored. What the calls of a thread
store, one after the other, are the pointers it has called with, each as a whole. The calls that
returned `false` are at most as many for each of the other threads. -/
theorem updates_atomic [Fintype T] {p : ItemPointer} {as : List (Swap.Action T ItemPointer)}
    {s : Swap.State T UInt64} (hrun : (machine T).run (init p) as = some s) :
    Swap.Leads p (Swap.updates (pointers s).returned) (.ofWord s.cell) ∧
      (∀ t, Swap.values (pointers s) t = Swap.loads t as) ∧
      Swap.failures (pointers s).returned ≤
        (Fintype.card T - 1) * (Swap.updates (pointers s).returned).length := by
  have hpointers := run_pointers hrun
  exact ⟨Swap.leads_run hpointers, Swap.values_run hpointers, Swap.failures_le_run hpointers⟩

/-- Two threads find the same pointer, and one updates it. -/
def contended : List (Swap.Action Bool ItemPointer) :=
  [.load false ⟨1, 2⟩, .load true ⟨3, 4⟩, .swap true, .swap false]

theorem updates_atomic_contended :
    ∃ s, (machine Bool).run (init ⟨0, 0⟩) contended = some s ∧
      Swap.Leads ⟨0, 0⟩ (Swap.updates (pointers s).returned) (.ofWord s.cell) ∧
      (∀ t, Swap.values (pointers s) t = Swap.loads t contended) ∧
      Swap.failures (pointers s).returned ≤
        (Fintype.card Bool - 1) * (Swap.updates (pointers s).returned).length :=
  ⟨_, rfl, @updates_atomic Bool _ _ ⟨0, 0⟩ contended _ rfl⟩

/-- **What a call returns.** If no pointer is stored that `*src_ptr` had before or that another call
is to store, a call returns `true` if and only if no other has done so since it loaded
`*cast_src_ptr`. -/
theorem returns_true_iff_undisturbed {p : ItemPointer} {as : List (Swap.Action T ItemPointer)}
    {s : Swap.State T UInt64} (hrun : (machine T).run (init p) as = some s)
    (hfresh : (Swap.machine T ItemPointer).Along (Swap.Fresh p) (Swap.init T p) as) :
    ∀ pre r post, s.returned = pre ++ r :: post →
      (r.success = true ↔ r.call.seen = (Swap.updates pre).length) := by
  intro pre r post heq
  have hundisturbed := Swap.undisturbed_run hfresh (run_pointers hrun)
  have hpre := hundisturbed (pre.map returnOf) (returnOf r) (post.map returnOf)
    (by rw [pointers, heq, List.map_append, List.map_cons])
  rwa [updates_map, List.length_map] at hpre

theorem returns_true_iff_undisturbed_contended :
    ∃ s, (machine Bool).run (init ⟨0, 0⟩) contended = some s ∧
      ∀ pre r post, s.returned = pre ++ r :: post →
        (r.success = true ↔ r.call.seen = (Swap.updates pre).length) :=
  ⟨_, rfl, @returns_true_iff_undisturbed Bool _ ⟨0, 0⟩ contended _ rfl (by decide)⟩

/-- The pointer is changed and changed back while a call is between its steps, which returns `true`
all the same. -/
example : ((machine Bool).run (init ⟨0, 0⟩)
    [.load false ⟨1, 2⟩, .load true ⟨3, 4⟩, .swap true, .load true ⟨0, 0⟩, .swap true,
      .swap false]).map (fun s ↦ s.returned.map fun r ↦ (r.success, r.call.seen)) =
    some [(true, 0), (true, 1), (true, 0)] := by
  decide

end AtomicUpdateItemPointer

end FulgurLogging
