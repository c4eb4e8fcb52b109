import FulgurLogging.BufferPool.Circular
import FulgurLogging.Lib.Census
import FulgurLogging.Lib.Machine
import Mathlib.Data.Finset.Card
import Mathlib.Data.Fintype.Basic

/-!
# `GetSize` while operations are in progress

The counters count the operations started. A consumer that waits in `Get` has advanced `tail_`, so
that on an empty pool `tail_` is ahead of `head_`, and a negative difference reduced modulo the
size looks like a pool with few places left.

They also count what is no longer there. A `Put` that is delayed between its two steps can store
over the buffer of a later one, when a whole lap has gone by, and the counters go on counting both.

The pool of the logging directory takes `BUFFER_POOL_SIZE` from a header that is not there. Here it
is one constant, a power of two. `Put` and `Get` are those of the other pool; the `memset` behind
the move of `Get` writes null over null.
-/

namespace FulgurLogging

open Census Ring Transition

namespace InProgress

/-- Where a thread stands. -/
inductive Point (size : ℕ) (β : Type*)
  | idle
  /-- In `Put`, before the store. -/
  | storing (idx : Fin size) (buffer : β)
  /-- In `Get`, before the slot has been found to hold a buffer. -/
  | taking (idx : Fin size)

structure State (size : ℕ) (β T : Type*) where
  pool : CircularBufferPool size β
  point : T → Point size β
  putsStarted : ℕ
  putsCompleted : ℕ
  getsStarted : ℕ
  getsCompleted : ℕ
  /-- The stores over a slot that held a buffer. -/
  overwritten : ℕ

inductive Action (β T : Type*)
  | startPut (t : T) (buffer : β)
  | store (t : T)
  | startGet (t : T)
  | take (t : T)

variable {size : ℕ} {β T : Type*}

/-- `GetSize`, when its two loads return these values. -/
def getSizeLoads (size : ℕ) (head tail : UInt32) : UInt32 :=
  let diff : Int32 :=
    ((head &&& UInt32.ofNat (size - 1)) - (tail &&& UInt32.ofNat (size - 1))).toInt32
  if diff = 0 ∧ head - tail > 0 then UInt32.ofNat size
  else ((diff + Int32.ofNat size) % Int32.ofNat size).toUInt32

/-- `GetSize`, on one snapshot of the counters. -/
def getSize (pool : CircularBufferPool size β) : UInt32 := getSizeLoads size pool.head pool.tail

def init (size : ℕ) (β T : Type*) : State size β T := ⟨.new size β, fun _ ↦ .idle, 0, 0, 0, 0, 0⟩

section Step

variable [NeZero size] [DecidableEq T]

def step (s : State size β T) : Action β T → Option (State size β T)
  | .startPut t buffer =>
    match s.point t with
    | .idle =>
      some { s with
        pool := s.pool.headFetchAdd.2
        point := Function.update s.point t (.storing s.pool.headFetchAdd.1 buffer)
        putsStarted := s.putsStarted + 1 }
    | _ => none
  | .store t =>
    match s.point t with
    | .storing idx buffer =>
      some { s with
        pool := s.pool.store idx (some buffer)
        point := Function.update s.point t .idle
        putsCompleted := s.putsCompleted + 1
        overwritten := if s.pool.holdsBuffer idx then s.overwritten + 1 else s.overwritten }
    | _ => none
  | .startGet t =>
    match s.point t with
    | .idle =>
      some { s with
        pool := s.pool.tailFetchAdd.2
        point := Function.update s.point t (.taking s.pool.tailFetchAdd.1)
        getsStarted := s.getsStarted + 1 }
    | _ => none
  | .take t =>
    match s.point t with
    | .taking idx =>
      if s.pool.holdsBuffer idx then
        some { s with
          pool := (s.pool.moveOut idx).2
          point := Function.update s.point t .idle
          getsCompleted := s.getsCompleted + 1 }
      -- the loop of `Get` goes round once more
      else some s
    | _ => none

def machine (size : ℕ) [NeZero size] (β T : Type*) [DecidableEq T] :
    Machine (State size β T) (Action β T) := ⟨step⟩

end Step

/-! ## The value returned -/

theorem counters_sub_pos_iff {puts gets : ℕ} (hsize : size ≤ 2 ^ 30) (hputs : puts ≤ gets + size)
    (hgets : gets < puts + size) : UInt32.ofNat puts - UInt32.ofNat gets > 0 ↔ puts ≠ gets := by
  rw [gt_iff_lt, UInt32.lt_iff_toNat_lt, UInt32.toNat_sub, UInt32.toNat_ofNat',
    UInt32.toNat_ofNat', UInt32.toNat_zero]
  omega

/-- Reduced modulo the size, a difference of indices is the difference of the counters. -/
theorem index_sub_emod (puts gets size : ℕ) :
    (((puts % size : ℕ) : ℤ) - (gets % size : ℕ)) % size = ((puts : ℤ) - gets) % size := by
  rw [Int.natCast_emod, Int.natCast_emod, ← Int.sub_emod]

theorem emod_of_lt {d n : ℤ} (hlo : -n < d) (hhi : d < n) :
    d % n = if 0 ≤ d then d else d + n := by
  split_ifs with hd
  · exact Int.emod_eq_of_lt hd hhi
  · rw [← Int.add_emod_right, Int.emod_eq_of_lt (by omega) (by omega)]

section Value

variable [NeZero size] {puts gets : ℕ}

/-- The last line of `GetSize`, on a difference of two indices. -/
theorem toNat_last_line {diff : Int32} (hsize : size ≤ 2 ^ 30) (hlo : -size < diff.toInt)
    (hhi : diff.toInt < size) :
    ((diff + Int32.ofNat size) % Int32.ofNat size).toUInt32.toNat =
      (diff.toInt % size).toNat := by
  have hpos : 0 < size := Nat.pos_of_neZero size
  have hcast : (Int32.ofNat size).toInt = size := Int32.toInt_ofNat_of_lt (by omega)
  have hsum : (diff + Int32.ofNat size).toInt = diff.toInt + size := by
    rw [Int32.toInt_add, hcast, Int.bmod_eq_of_le (by omega) (by omega)]
  have hmod : ((diff + Int32.ofNat size) % Int32.ofNat size).toInt = diff.toInt % size := by
    rw [Int32.toInt_mod, hsum, hcast, Int.tmod_eq_emod_of_nonneg (by omega),
      Int.add_emod_right]
  have hnonneg : 0 ≤ (diff + Int32.ofNat size) % Int32.ofNat size := by
    rw [Int32.le_iff_toInt_le, hmod, Int32.toInt_zero]
    exact Int.emod_nonneg _ (by omega)
  rw [Int32.toNat_toUInt32_of_le hnonneg, ← Int32.toNat_toInt, hmod]

/-- **The value of `GetSize`**, from the numbers of operations started. -/
theorem toNat_getSizeLoads (hdvd : size ∣ 2 ^ 32) (hsize : size ≤ 2 ^ 30)
    (hputs : puts ≤ gets + size) (hgets : gets < puts + size) :
    ((getSizeLoads size (UInt32.ofNat puts) (UInt32.ofNat gets)).toNat : ℤ) =
      if gets ≤ puts then (puts : ℤ) - gets else (puts : ℤ) - gets + size := by
  have hpos : 0 < size := Nat.pos_of_neZero size
  have hheadlt : puts % size < size := Nat.mod_lt puts hpos
  have htaillt : gets % size < size := Nat.mod_lt gets hpos
  have hdiff : (UInt32.ofNat (puts % size) - UInt32.ofNat (gets % size)).toInt32.toInt = _ :=
    CircularBufferPool.toInt_sub_index (by omega) (by omega)
  have hemod := index_sub_emod puts gets size
  rw [← hdiff] at hemod
  simp only [getSizeLoads, CircularBufferPool.ofNat_and_mask hdvd,
    counters_sub_pos_iff hsize hputs hgets]
  generalize (UInt32.ofNat (puts % size) - UInt32.ofNat (gets % size)).toInt32 = diff
    at hdiff hemod ⊢
  have hdiffmod := emod_of_lt (d := diff.toInt) (n := size) (by omega) (by omega)
  have hzero : diff = 0 ↔ diff.toInt = 0 := by rw [← Int32.toInt_inj, Int32.toInt_zero]
  by_cases hfull : puts = gets + size
  · -- the indices coincide and the counters do not
    have hd : ((puts : ℤ) - gets) % size = 0 := by
      rw [hfull, Int.natCast_add, add_sub_cancel_left, Int.emod_self]
    have hdiff0 : diff = 0 := by
      rw [hzero]
      omega
    rw [if_pos ⟨hdiff0, by omega⟩, UInt32.toNat_ofNat_of_lt' (hsize.trans_lt (by decide)),
      if_pos (by omega)]
    omega
  · have hmod := emod_of_lt (d := (puts : ℤ) - gets) (n := size) (by omega) (by omega)
    rw [if_neg, toNat_last_line hsize (by omega) (by omega), hemod]
    · omega
    · rintro ⟨hdiff0, hne⟩
      rw [hzero] at hdiff0
      omega

end Value

/-! ## The invariant -/

/-- The slots that are not null. -/
def occupied (buffers : Fin size → Option β) : Finset (Fin size) :=
  Finset.univ.filter fun i ↦ (buffers i).isSome

theorem mem_occupied {buffers : Fin size → Option β} {i : Fin size} :
    i ∈ occupied buffers ↔ (buffers i).isSome := by
  rw [occupied, Finset.mem_filter, and_iff_right (Finset.mem_univ i)]

theorem occupied_store (buffers : Fin size → Option β) (idx : Fin size) (buffer : β) :
    occupied (Function.update buffers idx (some buffer)) = insert idx (occupied buffers) := by
  ext i
  rw [Finset.mem_insert, mem_occupied, mem_occupied]
  by_cases hi : i = idx
  · rw [hi, Function.update_self]
    exact iff_of_true rfl (.inl rfl)
  · rw [Function.update_of_ne hi, or_iff_right hi]

theorem occupied_moveOut (buffers : Fin size → Option β) (idx : Fin size) :
    occupied (Function.update buffers idx none) = (occupied buffers).erase idx := by
  ext i
  rw [Finset.mem_erase, mem_occupied, mem_occupied]
  by_cases hi : i = idx
  · rw [hi, Function.update_self]
    exact iff_of_false Bool.false_ne_true fun h ↦ h.1 rfl
  · rw [Function.update_of_ne hi, and_iff_right hi]

def Point.IsStoring : Point size β → Prop
  | .storing _ _ => True
  | _ => False

def Point.IsTaking : Point size β → Prop
  | .taking _ => True
  | _ => False

/-- The counters count the operations started. Those not completed are the ones of threads in
progress, and a buffer of a `Put` completed is in a slot, or was got, or was stored over. -/
structure Counted (s : State size β T) : Prop where
  head : s.pool.head = UInt32.ofNat s.putsStarted
  tail : s.pool.tail = UInt32.ofNat s.getsStarted
  occupied : (occupied s.pool.buffers).card + s.getsCompleted + s.overwritten = s.putsCompleted
  puts : ∃ n, Count Point.IsStoring s.point n ∧ s.putsStarted = s.putsCompleted + n
  gets : ∃ n, Count Point.IsTaking s.point n ∧ s.getsStarted = s.getsCompleted + n

theorem counted_init : Counted (init size β T) := by
  refine ⟨rfl, rfl, ?_, ⟨0, Count.zero fun _ ↦ id, rfl⟩, ⟨0, Count.zero fun _ ↦ id, rfl⟩⟩
  have hnone : InProgress.occupied (CircularBufferPool.new size β).buffers = ∅ :=
    Finset.filter_eq_empty_iff.mpr fun _ _ ↦ Bool.false_ne_true
  exact congrArg Finset.card hnone

section Step

variable [NeZero size] [DecidableEq T] {s s' : State size β T} {t : T}

namespace Counted

theorem startPut (h : Counted s) {buffer : β} (hstep : step s (.startPut t buffer) = some s') :
    Counted s' := by
  rw [step] at hstep
  split at hstep
  · next hpoint =>
    obtain rfl := Option.some_inj.mp hstep
    obtain ⟨n, hn, hputs⟩ := h.puts
    obtain ⟨m, hm, hgets⟩ := h.gets
    refine ⟨?_, h.tail, h.occupied, ⟨n + 1, hn.enter ?_ trivial, ?_⟩, ⟨m, hm.keep ?_, hgets⟩⟩
    · change s.pool.head + 1 = _
      rw [h.head, UInt32.ofNat_add _ 1]
      rfl
    · rw [hpoint]
      exact id
    · rw [hputs, Nat.add_assoc]
    · rw [hpoint]
      exact Iff.rfl
  · exact absurd hstep nofun

theorem store (h : Counted s) (hstep : step s (.store t) = some s') : Counted s' := by
  rw [step] at hstep
  split at hstep
  · next idx buffer hpoint =>
    obtain rfl := Option.some_inj.mp hstep
    obtain ⟨n, hn, hputs⟩ := h.puts
    obtain ⟨m, hm, hgets⟩ := h.gets
    obtain ⟨k, rfl, hk⟩ := hn.leave (t := t) (p := .idle) (by rw [hpoint]; trivial) id
    refine ⟨h.head, h.tail, ?_, ⟨k, hk, ?_⟩, ⟨m, hm.keep ?_, hgets⟩⟩
    · have hocc := h.occupied
      change (InProgress.occupied (Function.update s.pool.buffers idx (some buffer))).card +
        s.getsCompleted + (if s.pool.holdsBuffer idx then s.overwritten + 1 else s.overwritten) =
          s.putsCompleted + 1
      rw [occupied_store]
      by_cases hheld : s.pool.holdsBuffer idx = true
      · rw [if_pos hheld, Finset.insert_eq_of_mem (mem_occupied.mpr hheld)]
        omega
      · rw [if_neg hheld, Finset.card_insert_of_notMem fun hc ↦ hheld (mem_occupied.mp hc)]
        omega
    · change s.putsStarted = s.putsCompleted + 1 + k
      omega
    · rw [hpoint]
      exact Iff.rfl
  · exact absurd hstep nofun

theorem startGet (h : Counted s) (hstep : step s (.startGet t) = some s') : Counted s' := by
  rw [step] at hstep
  split at hstep
  · next hpoint =>
    obtain rfl := Option.some_inj.mp hstep
    obtain ⟨n, hn, hputs⟩ := h.puts
    obtain ⟨m, hm, hgets⟩ := h.gets
    refine ⟨h.head, ?_, h.occupied, ⟨n, hn.keep ?_, hputs⟩, ⟨m + 1, hm.enter ?_ trivial, ?_⟩⟩
    · change s.pool.tail + 1 = _
      rw [h.tail, UInt32.ofNat_add _ 1]
      rfl
    · rw [hpoint]
      exact Iff.rfl
    · rw [hpoint]
      exact id
    · rw [hgets, Nat.add_assoc]
  · exact absurd hstep nofun

theorem take (h : Counted s) (hstep : step s (.take t) = some s') : Counted s' := by
  rw [step] at hstep
  split at hstep
  · next idx hpoint =>
    split_ifs at hstep with hheld
    · obtain rfl := Option.some_inj.mp hstep
      obtain ⟨n, hn, hputs⟩ := h.puts
      obtain ⟨m, hm, hgets⟩ := h.gets
      obtain ⟨k, rfl, hk⟩ := hm.leave (t := t) (p := .idle) (by rw [hpoint]; trivial) id
      refine ⟨h.head, h.tail, ?_, ⟨n, hn.keep ?_, hputs⟩, ⟨k, hk, ?_⟩⟩
      · have hcard := Finset.card_erase_add_one (mem_occupied.mpr hheld)
        have hocc := h.occupied
        rw [← occupied_moveOut] at hcard
        change (InProgress.occupied (Function.update s.pool.buffers idx none)).card +
          (s.getsCompleted + 1) + s.overwritten = s.putsCompleted
        omega
      · rw [hpoint]
        exact Iff.rfl
      · change s.getsStarted = s.getsCompleted + 1 + k
        omega
    · -- the slot is null, and the `Get` goes on waiting
      exact Option.some_inj.mp hstep ▸ h
  · exact absurd hstep nofun

end Counted

theorem preserves_counted : (machine size β T).Preserves Counted := by
  intro s s' a h hstep
  cases a with
  | startPut t buffer => exact h.startPut hstep
  | store t => exact h.store hstep
  | startGet t => exact h.startGet hstep
  | take t => exact h.take hstep

end Step

/-! ## What `GetSize` should return -/

section Right

/-- Nothing is in progress. -/
def AtRest (s : State size β T) : Prop :=
  ∀ t, ¬(s.point t).IsStoring ∧ ¬(s.point t).IsTaking

/-- The pool is empty, nobody is about to store, and consumers are waiting. -/
def Waiting (s : State size β T) : Prop :=
  occupied s.pool.buffers = ∅ ∧ (∀ t, ¬(s.point t).IsStoring) ∧ ∃ t, (s.point t).IsTaking

/-- The value lies between what is certainly in the pool and what may be. It is the number of
buffers held when nothing is in progress, and zero when the pool is empty and consumers wait. -/
structure CountsRight (s : State size β T) : Prop where
  lower : (s.putsCompleted : ℤ) - s.getsStarted ≤ (getSize s.pool).toNat
  upper : ((getSize s.pool).toNat : ℤ) ≤ s.putsStarted - s.getsCompleted
  rest : AtRest s → (getSize s.pool).toNat = (occupied s.pool.buffers).card
  waiting : Waiting s → (getSize s.pool).toNat = 0

variable {s : State size β T} {k : ℕ}

theorem dvd_of_eq_pow (hpow : size = 2 ^ k) (hle : size ≤ 2 ^ 30) : size ∣ 2 ^ 32 := by
  have hk : k ≤ 30 := (Nat.pow_le_pow_iff_right Nat.one_lt_two).mp (hpow ▸ hle)
  exact hpow ▸ Nat.pow_dvd_pow 2 (hk.trans (by decide))

namespace Counted

theorem toNat_getSize [NeZero size] (h : Counted s) (hpow : size = 2 ^ k) (hle : size ≤ 2 ^ 30)
    (hroom : s.putsStarted ≤ s.getsCompleted + size)
    (hgets : s.getsStarted < s.getsCompleted + size) :
    ((getSize s.pool).toNat : ℤ) = if s.getsStarted ≤ s.putsStarted then
      (s.putsStarted : ℤ) - s.getsStarted else (s.putsStarted : ℤ) - s.getsStarted + size := by
  obtain ⟨n, -, hputs⟩ := h.puts
  obtain ⟨m, -, hgets'⟩ := h.gets
  have hocc := h.occupied
  rw [getSize, h.head, h.tail,
    toNat_getSizeLoads (dvd_of_eq_pow hpow hle) hle (by omega) (by omega)]

theorem getSize_eq_zero_iff [NeZero size] (h : Counted s) (hpow : size = 2 ^ k)
    (hle : size ≤ 2 ^ 30) (hroom : s.putsStarted ≤ s.getsCompleted + size)
    (hgets : s.getsStarted < s.getsCompleted + size) :
    (getSize s.pool).toNat = 0 ↔ s.putsStarted = s.getsStarted := by
  obtain ⟨n, -, hputs⟩ := h.puts
  have hocc := h.occupied
  have hvalue := h.toNat_getSize hpow hle hroom hgets
  split_ifs at hvalue with hahead
  · omega
  · -- it cannot be as far behind as that
    omega

/-- The bounds. -/
theorem between_iff [NeZero size] (h : Counted s) (hpow : size = 2 ^ k) (hle : size ≤ 2 ^ 30)
    (hroom : s.putsStarted ≤ s.getsCompleted + size)
    (hgets : s.getsStarted < s.getsCompleted + size) :
    ((s.putsCompleted : ℤ) - s.getsStarted ≤ (getSize s.pool).toNat ∧
        ((getSize s.pool).toNat : ℤ) ≤ s.putsStarted - s.getsCompleted) ↔
      s.getsStarted ≤ s.putsStarted := by
  obtain ⟨n, -, hputs⟩ := h.puts
  obtain ⟨m, -, hgets'⟩ := h.gets
  rw [h.toNat_getSize hpow hle hroom hgets]
  split_ifs with hahead
  · exact iff_of_true ⟨by omega, by omega⟩ hahead
  · -- the value is too large by what the completed `Get`s leave of the size
    exact iff_of_false (fun hbounds ↦ absurd hbounds.2 (by omega)) hahead

/-- At rest, what was stored over is counted and not held. -/
theorem atRest (h : Counted s) (hrest : AtRest s) :
    s.putsStarted = s.getsStarted + (InProgress.occupied s.pool.buffers).card + s.overwritten := by
  obtain ⟨n, hn, hputs⟩ := h.puts
  obtain ⟨m, hm, hgets⟩ := h.gets
  have hocc := h.occupied
  have hn0 := hn.eq_zero fun t ↦ (hrest t).1
  have hm0 := hm.eq_zero fun t ↦ (hrest t).2
  omega

/-- With consumers waiting in the empty pool, there are more `Get`s than `Put`s, unless buffers have
been stored over. -/
theorem waiting (h : Counted s) (hwaiting : Waiting s) :
    s.putsStarted < s.getsStarted + s.overwritten := by
  obtain ⟨hempty, hstoring, t, ht⟩ := hwaiting
  obtain ⟨n, hn, hputs⟩ := h.puts
  obtain ⟨m, hm, hgets⟩ := h.gets
  have hocc := h.occupied
  have hn0 := hn.eq_zero hstoring
  have hmpos := hm.pos ht
  rw [hempty, Finset.card_empty] at hocc
  omega

end Counted

end Right

/-- **`GetSize` while operations are in progress.** In every reachable state where the `Put`s
started exceed the `Get`s completed by at most `size`, and fewer than `size` `Get`s are in progress,
its value is right if and only if no more `Get`s than `Put`s have been started, just as many if
consumers wait in an empty pool, and no buffer has been stored over if nothing is in progress. As
long as no buffer has been stored over, it is right exactly if no more `Get`s than `Put`s have been
started. And whatever is in progress, it is zero exactly if just as many have been. -/
theorem getSize_right_iff [NeZero size] [DecidableEq T] {k : ℕ} (hpow : size = 2 ^ k)
    (hle : size ≤ 2 ^ 30) {actions : List (Action β T)} {s : State size β T}
    (hrun : (machine size β T).run (init size β T) actions = some s)
    (hroom : s.putsStarted ≤ s.getsCompleted + size)
    (hgets : s.getsStarted < s.getsCompleted + size) :
    (CountsRight s ↔ s.getsStarted ≤ s.putsStarted ∧ (AtRest s → s.overwritten = 0) ∧
      (Waiting s → s.putsStarted = s.getsStarted)) ∧
    (s.overwritten = 0 → (CountsRight s ↔ s.getsStarted ≤ s.putsStarted)) ∧
    ((getSize s.pool).toNat = 0 ↔ s.putsStarted = s.getsStarted) := by
  have h : Counted s := preserves_counted.run counted_init hrun
  have hvalue := h.toNat_getSize hpow hle hroom hgets
  have hbetween := h.between_iff hpow hle hroom hgets
  have hzero := h.getSize_eq_zero_iff hpow hle hroom hgets
  have hiff : CountsRight s ↔ s.getsStarted ≤ s.putsStarted ∧ (AtRest s → s.overwritten = 0) ∧
      (Waiting s → s.putsStarted = s.getsStarted) := by
    constructor
    · intro hright
      have hahead := hbetween.mp ⟨hright.lower, hright.upper⟩
      rw [if_pos hahead] at hvalue
      refine ⟨hahead, fun hrest ↦ ?_, fun hwaiting ↦ ?_⟩
      · have hcount := h.atRest hrest
        have hheld := hright.rest hrest
        omega
      · exact hzero.mp (hright.waiting hwaiting)
    · rintro ⟨hahead, hrest, hwaiting⟩
      obtain ⟨hlower, hupper⟩ := hbetween.mpr hahead
      rw [if_pos hahead] at hvalue
      refine ⟨hlower, hupper, fun hs ↦ ?_, fun hs ↦ hzero.mpr (hwaiting hs)⟩
      have hcount := h.atRest hs
      have hnone := hrest hs
      omega
  refine ⟨hiff, fun hnone ↦ ?_, hzero⟩
  rw [hiff, and_iff_left_iff_imp]
  refine fun hahead ↦ ⟨fun _ ↦ hnone, fun hwaiting ↦ ?_⟩
  -- then nobody waits in an empty pool
  have hlt := h.waiting hwaiting
  omega

/-- One buffer has been put, and a second is about to be. -/
def putting : List (Action ℕ ℕ) := [.startPut 0 7, .store 0, .startPut 1 8]

theorem getSize_putting :
    ∃ s, (machine 4 ℕ ℕ).run (init 4 ℕ ℕ) putting = some s ∧ CountsRight s := by
  have hrun : (machine 4 ℕ ℕ).run (init 4 ℕ ℕ) putting = some _ := rfl
  have hpow : 4 = 2 ^ 2 := rfl
  exact ⟨_, hrun, ((getSize_right_iff hpow (by decide) hrun (by decide) (by decide)).2.1 rfl).mpr
    (by decide)⟩

/-- A `Get` waits in the empty pool of two slots. -/
def waiting : List (Action ℕ ℕ) := [.startGet 0]

theorem getSize_waiting :
    ∃ s, (machine 2 ℕ ℕ).run (init 2 ℕ ℕ) waiting = some s ∧
      s.putsStarted ≤ s.getsCompleted + 2 ∧ s.getsStarted < s.getsCompleted + 2 ∧
      s.putsStarted - s.getsCompleted = 0 ∧ occupied s.pool.buffers = ∅ ∧
      (getSize s.pool).toNat = 1 ∧ ¬CountsRight s := by
  refine ⟨_, rfl, by decide, by decide, rfl, by decide, rfl, fun hright ↦ ?_⟩
  exact absurd hright.upper (by decide)

/-- A `Put` is delayed for a whole lap and stores over the buffer of a later one. At rest, one
buffer is counted and none is held. -/
example : ((machine 4 ℕ ℕ).run (init 4 ℕ ℕ)
    [.startPut 0 7, .startPut 1 8, .store 1, .startPut 1 9, .store 1, .startPut 1 10, .store 1,
      .startGet 2, .startGet 1, .take 1, .startGet 1, .take 1, .startGet 1, .take 1,
      .startPut 1 11, .store 1, .store 0, .take 2]).map (fun s ↦
        ((getSize s.pool).toNat, (occupied s.pool.buffers).card, s.overwritten)) =
    some (1, 0, 1) := by
  decide

end InProgress

end FulgurLogging
