import Mathlib.Logic.Function.Iterate
import Mathlib.Data.List.Basic
import Mathlib.Data.Int.Notation
import Lunule.Runs

/-!
`ReqCounter` of `mds/adsl/ReqCounter.{h,cc}`: the per-inode record of which of the last
`REQCOUNTER_QUEUE_LEN_DEFAULT` balancer epochs saw a request. `_data` is the window of
completed epochs, oldest first; `_last_hit` says whether the current epoch has seen one;
`_cache_hit_times` keeps the number of `true` entries of the window. `switch_epoch(k)` closes
the current epoch and `k - 1` empty ones, `hit()` reports whether the request is the
epoch's first and, if it is, whether the window is empty.

What the counter stands for is a history of epochs: the window is the last five entries of
the history, padded with empty epochs before the counter existed. A counter whose fields
start as that of the empty history tracks it over every run. The constructor sets `_data`
only, and leaves `_last_hit` and `_cache_hit_times` with whatever the storage held; the
model takes them as arguments.
-/

namespace Lunule

/-! ### The last entries of a history -/

section LastN

variable {α : Type} {n : ℕ} {pad b : α} {h : List α}

/-- The last `n` entries of `h`, padded in front with `pad` where `h` is shorter. -/
def lastN (n : ℕ) (pad : α) (h : List α) : List α := (List.replicate n pad ++ h).drop h.length

@[simp] theorem length_lastN : (lastN n pad h).length = n := by
  simp [lastN]

@[simp] theorem lastN_nil : lastN n pad [] = List.replicate n pad := by
  simp [lastN]

/-- One more entry moves the window on by one. -/
theorem lastN_append_singleton (hn : 0 < n) :
    lastN n pad (h ++ [b]) = (lastN n pad h).tail ++ [b] := by
  have hne : lastN n pad h ≠ [] := List.ne_nil_of_length_pos (by simpa using hn)
  obtain ⟨x, xs, hx⟩ := List.exists_cons_of_ne_nil hne
  have hstep : lastN n pad (h ++ [b]) = (lastN n pad h ++ [b]).drop 1 := by
    unfold lastN
    rw [List.length_append, List.length_singleton, ← List.drop_drop, ← List.append_assoc,
      List.drop_append_of_le_length (by simp)]
  rw [hstep, hx, List.cons_append, List.drop_one, List.tail_cons, List.tail_cons]

/-- At least `n` padding entries at the end fill the window. -/
theorem lastN_append_replicate {k : ℕ} (hk : n ≤ k) :
    lastN n pad (h ++ List.replicate k pad) = List.replicate n pad := by
  have hsplit : List.replicate k pad = List.replicate (k - n) pad ++ List.replicate n pad := by
    rw [List.replicate_append_replicate, Nat.sub_add_cancel hk]
  unfold lastN
  rw [List.length_append, List.length_replicate, hsplit]
  simp only [← List.append_assoc]
  exact List.drop_left' (by simp; omega)

end LastN

/-! ### The model -/

/-- `REQCOUNTER_QUEUE_LEN_DEFAULT`. -/
def reqcounterQueueLenDefault : ℕ := 5

/-- The `int` a `bool` converts to. -/
def boolToInt (b : Bool) : ℤ := if b then 1 else 0

structure ReqCounter where
  data : List Bool
  lastHit : Bool
  cacheHitTimes : ℤ
  deriving DecidableEq, Repr

namespace ReqCounter

/-- `ReqCounter(queue_len)`: `_data` gets `REQCOUNTER_QUEUE_LEN_DEFAULT` entries `false`,
whatever `queue_len` is; `_last_hit` and `_cache_hit_times` keep what the storage held. -/
def new (lastHit : Bool) (cacheHitTimes : ℤ) : ReqCounter :=
  ⟨List.replicate reqcounterQueueLenDefault false, lastHit, cacheHitTimes⟩

/-- One pass of the loop of `switch_epoch`: the oldest epoch leaves the window and an epoch
without hits enters it. `front()` of an empty list is read as `false`. -/
def shiftOut (c : ReqCounter) : ReqCounter :=
  ⟨c.data.tail ++ [false], c.lastHit, c.cacheHitTimes - boolToInt (c.data.headD false)⟩

/-- `switch_epoch(epoch_num)`: more than `REQCOUNTER_QUEUE_LEN_DEFAULT + 1` epochs reset the
counter; otherwise the current epoch enters the window, then `epoch_num - 1` empty ones. -/
def switchEpoch (c : ReqCounter) (epochNum : ℤ) : ReqCounter :=
  if epochNum > reqcounterQueueLenDefault + 1 then
    ⟨List.replicate reqcounterQueueLenDefault false, false, 0⟩
  else
    shiftOut^[(epochNum - 1).toNat]
      ⟨c.data.tail ++ [c.lastHit], false,
        c.cacheHitTimes + (boolToInt c.lastHit - boolToInt (c.data.headD false))⟩

/-- `hit()`: `-1` if the epoch already had a hit, else `!_cache_hit_times`. -/
def hit (c : ReqCounter) : ℤ × ReqCounter :=
  if c.lastHit then (-1, c)
  else (if c.cacheHitTimes = 0 then 1 else 0, { c with lastHit := true })

/-- A call on the counter. -/
inductive Call where
  | hit
  | switchEpoch (epochNum : ℤ)

def step (c : ReqCounter) : Call → Option ReqCounter
  | .hit => some c.hit.2
  | .switchEpoch k => some (c.switchEpoch k)

/-! ### The history a counter stands for -/

/-- The window of a history: its last `REQCOUNTER_QUEUE_LEN_DEFAULT` completed epochs. -/
def window (hist : List Bool) : List Bool := lastN reqcounterQueueLenDefault false hist

/-- What `hit()` should answer: `-1` after a hit in the current epoch, `1` when none of the
last five completed epochs had one, `0` otherwise. -/
def answer (hist : List Bool) (cur : Bool) : ℤ :=
  if cur then -1 else if true ∈ window hist then 0 else 1

/-- The history after a call: a hit marks the current epoch, `switch_epoch(k)` closes it and
`k - 1` epochs without hits. -/
def record (hc : List Bool × Bool) : Call → List Bool × Bool
  | .hit => (hc.1, true)
  | .switchEpoch k => (hc.1 ++ hc.2 :: List.replicate (k - 1).toNat false, false)

/-- The counter holds the window of `hist`, the current epoch `cur` and the count of hits in
the window. -/
structure Tracks (c : ReqCounter) (hist : List Bool) (cur : Bool) : Prop where
  data_eq : c.data = window hist
  lastHit_eq : c.lastHit = cur
  count_eq : c.cacheHitTimes = c.data.count true

variable {c : ReqCounter} {hist : List Bool} {cur : Bool}

theorem Tracks.length (h : Tracks c hist cur) : c.data.length = reqcounterQueueLenDefault := by
  rw [h.data_eq, window, length_lastN]

/-- The count of a nonempty window is its first entry and the count of the rest. -/
theorem count_eq_head_add {l : List Bool} (hl : l ≠ []) :
    (l.count true : ℤ) = boolToInt (l.headD false) + l.tail.count true := by
  obtain ⟨x, xs, rfl⟩ := List.exists_cons_of_ne_nil hl
  cases x <;> simp [boolToInt]
  omega

theorem count_push (l : List Bool) (b : Bool) :
    ((l ++ [b]).count true : ℤ) = l.count true + boolToInt b := by
  cases b <;> simp [boolToInt, List.count_append]

theorem window_ne_nil (hist : List Bool) : window hist ≠ [] :=
  List.ne_nil_of_length_pos (by simp [window, reqcounterQueueLenDefault])

theorem window_push (hist : List Bool) (b : Bool) :
    window (hist ++ [b]) = (window hist).tail ++ [b] :=
  lastN_append_singleton (by decide)

/-- The current epoch closes: it enters the window. -/
theorem Tracks.close (h : Tracks c hist cur) :
    Tracks ⟨c.data.tail ++ [c.lastHit], false,
      c.cacheHitTimes + (boolToInt c.lastHit - boolToInt (c.data.headD false))⟩
      (hist ++ [cur]) false := by
  have hne : c.data ≠ [] := h.data_eq ▸ window_ne_nil hist
  refine ⟨?_, rfl, ?_⟩
  · rw [window_push, ← h.data_eq, h.lastHit_eq]
  · show c.cacheHitTimes + (boolToInt c.lastHit - boolToInt (c.data.headD false)) =
      ((c.data.tail ++ [c.lastHit]).count true : ℤ)
    rw [count_push, h.count_eq, count_eq_head_add hne]
    omega

/-- An empty epoch enters the window. -/
theorem Tracks.shiftOut (h : Tracks c hist cur) : Tracks c.shiftOut (hist ++ [false]) cur := by
  have hne : c.data ≠ [] := h.data_eq ▸ window_ne_nil hist
  refine ⟨?_, h.lastHit_eq, ?_⟩
  · rw [ReqCounter.shiftOut, window_push, ← h.data_eq]
  · show c.cacheHitTimes - boolToInt (c.data.headD false) =
      ((c.data.tail ++ [false]).count true : ℤ)
    have h0 : boolToInt false = 0 := rfl
    rw [count_push, h.count_eq, count_eq_head_add hne]
    omega

theorem Tracks.iterate_shiftOut (h : Tracks c hist cur) :
    ∀ m : ℕ, Tracks (ReqCounter.shiftOut^[m] c) (hist ++ List.replicate m false) cur
  | 0 => by simpa using h
  | m + 1 => by
    rw [Function.iterate_succ_apply', List.replicate_succ', ← List.append_assoc]
    exact (h.iterate_shiftOut m).shiftOut

/-- `switch_epoch(k)` closes the current epoch and `k - 1` empty ones, on both of its
branches (and one epoch for `k ≤ 0`). -/
theorem Tracks.switchEpoch (h : Tracks c hist cur) (k : ℤ) :
    Tracks (c.switchEpoch k) (hist ++ cur :: List.replicate (k - 1).toNat false) false := by
  unfold ReqCounter.switchEpoch
  split_ifs with hbig
  · have hfill : window (hist ++ cur :: List.replicate (k - 1).toNat false) =
        List.replicate reqcounterQueueLenDefault false := by
      rw [← List.singleton_append, ← List.append_assoc, window,
        lastN_append_replicate (by simp only [reqcounterQueueLenDefault] at hbig ⊢; omega)]
    exact ⟨hfill.symm, rfl, by simp [reqcounterQueueLenDefault]⟩
  · rw [show hist ++ cur :: List.replicate (k - 1).toNat false =
      hist ++ [cur] ++ List.replicate (k - 1).toNat false by simp]
    exact h.close.iterate_shiftOut _

/-- `hit()` answers by the history and marks the current epoch. -/
theorem Tracks.hit (h : Tracks c hist cur) :
    c.hit.1 = answer hist cur ∧ Tracks c.hit.2 hist true := by
  cases hcur : cur
  · have hl : c.lastHit = false := h.lastHit_eq.trans hcur
    have hzero : c.cacheHitTimes = 0 ↔ true ∉ window hist := by
      rw [h.count_eq, h.data_eq, Int.natCast_eq_zero, List.count_eq_zero]
    have heq : c.hit = (if c.cacheHitTimes = 0 then 1 else 0, { c with lastHit := true }) := by
      simp [ReqCounter.hit, hl]
    rw [heq]
    refine ⟨?_, ⟨h.data_eq, rfl, h.count_eq⟩⟩
    simp only [answer, Bool.false_eq_true, if_false]
    by_cases hw : true ∈ window hist
    · rw [if_neg (fun h0 => hzero.mp h0 hw), if_pos hw]
    · rw [if_pos (hzero.mpr hw), if_neg hw]
  · have hl : c.lastHit = true := h.lastHit_eq.trans hcur
    simp only [ReqCounter.hit, hl, if_true, answer]
    exact ⟨trivial, hcur ▸ h⟩

/-- A counter whose storage held `false` and `0` starts as the empty history. -/
theorem tracks_new : Tracks (new false 0) [] false :=
  ⟨rfl, rfl, by simp [new, reqcounterQueueLenDefault]⟩

open Runs

/-- Every run of calls from a counter that tracks a history keeps tracking the history the
calls record. -/
theorem tracks_run (calls : List Call) : ∀ (c : ReqCounter) (hist : List Bool) (cur : Bool),
    Tracks c hist cur → ∃ c', run step c calls = some c' ∧
      Tracks c' (calls.foldl record (hist, cur)).1 (calls.foldl record (hist, cur)).2 := by
  induction calls with
  | nil => exact fun c _ _ h => ⟨c, rfl, h⟩
  | cons call calls ih =>
    intro c hist cur h
    cases call with
    | hit => exact ih c.hit.2 hist true h.hit.2
    | switchEpoch k => exact ih (c.switchEpoch k) _ false (h.switchEpoch k)

/-- A counter built on zeroed storage and driven by any calls of `hit()` and
`switch_epoch(k)` keeps five entries, counts the hits in them, and its next `hit()` answers
as the history of the calls says: `-1` after a hit in the current epoch, `1` when none of the
last five completed epochs (skipped ones included) had a hit, `0` otherwise. -/
theorem zeroed_counter_tracks_window (calls : List Call) :
    ∃ c, run step (new false 0) calls = some c ∧
      c.data.length = reqcounterQueueLenDefault ∧ c.cacheHitTimes = c.data.count true ∧
      c.hit.1 = answer (calls.foldl record ([], false)).1 (calls.foldl record ([], false)).2 := by
  obtain ⟨c, hrun, h⟩ := tracks_run calls (new false 0) [] false tracks_new
  exact ⟨c, hrun, h.length, h.count_eq, h.hit.1⟩

/-- The storage a `ReqCounter` is built in decides its first answers: with `_cache_hit_times`
left at `1`, the first `hit()` of a fresh counter reports an old inode (`0`) and the count
disagrees with the empty window; with `_last_hit` left `true` it reports a repeated hit. -/
theorem uninitialised_counter_misreports :
    (new false 1).hit.1 = 0 ∧ (new false 1).cacheHitTimes ≠ (new false 1).data.count true ∧
      (new true 0).hit.1 = -1 ∧ answer [] false = 1 := by
  decide

end ReqCounter

end Lunule
