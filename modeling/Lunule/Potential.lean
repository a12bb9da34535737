import Mathlib.Tactic.Linarith
import Mathlib.Tactic.Positivity
import Lunule.Density

/-!
The potential loads `dirfrag_pot_load_t` (`adsl/mdstypes.cc`) over time and in sums. A record
is brought to an epoch only when it is next touched: `_update_epoch(e)` then divides the value
by 4 once, whatever the number of epochs skipped, and keeps the old value as the last one
only if `e` is the epoch right after the record's. `add` brings the accumulator to the other
record's epoch and adds its value, unless the accumulator is at a later epoch already, and
`MDBalancer::get_load` folds it over the dirfrags of the root into fresh records.
-/

namespace Lunule.Density.PotLoad

variable {p q a : PotLoad} {e e1 : ℤ}

theorem updateEpoch_of_lt (h : p.lastEpoch < e) :
    p.updateEpoch e = ⟨p.value / 4, if e - p.lastEpoch = 1 then p.value else 0, e⟩ :=
  if_pos h

theorem updateEpoch_of_le (h : e ≤ p.lastEpoch) : p.updateEpoch e = p :=
  if_neg (not_lt.2 h)

/-- The epoch right after the record's: the value becomes the last one. -/
theorem updateEpoch_next (p : PotLoad) :
    p.updateEpoch (p.lastEpoch + 1) = ⟨p.value / 4, p.value, p.lastEpoch + 1⟩ := by
  rw [updateEpoch_of_lt (lt_add_one _)]
  simp

/-- An epoch two or more after the record's: the last value is lost. -/
theorem updateEpoch_of_add_one_lt (h : p.lastEpoch + 1 < e) :
    p.updateEpoch e = ⟨p.value / 4, 0, e⟩ := by
  rw [updateEpoch_of_lt (by omega), if_neg (by omega)]

theorem add_of_lt (h : q.lastEpoch < p.lastEpoch) : p.add q = p :=
  if_pos h

theorem add_of_le (h : p.lastEpoch ≤ q.lastEpoch) :
    p.add q = ⟨(p.updateEpoch q.lastEpoch).value + q.value,
      (p.updateEpoch q.lastEpoch).lastValue, q.lastEpoch⟩ := by
  rw [add, if_neg (not_lt.2 h), adjust]
  by_cases hlt : p.lastEpoch < q.lastEpoch
  · simp [updateEpoch_of_lt hlt]
  · simp [updateEpoch_of_le (not_lt.1 hlt), le_antisymm h (not_lt.1 hlt)]

/-! ### Catching up over skipped epochs -/

/-- The record brought from epoch `e1` to `e1 + n` one epoch at a time:
`_update_epoch(e1 + 1)`, ..., `_update_epoch(e1 + n)`. -/
def updateEpochEach (p : PotLoad) (e1 : ℤ) : ℕ → PotLoad
  | 0 => p
  | n + 1 => (p.updateEpochEach e1 n).updateEpoch (e1 + n + 1)

/-- From a record before `e1`, the first step skips an epoch and loses the last value; every
later step is to the next epoch, so the value decays by 4 once per epoch. -/
theorem updateEpochEach_succ_of_lt (hp : p.lastEpoch < e1) (n : ℕ) :
    p.updateEpochEach e1 (n + 1) =
      ⟨p.value / 4 ^ (n + 1), if n = 0 then 0 else p.value / 4 ^ n, e1 + n + 1⟩ := by
  induction n with
  | zero =>
    rw [updateEpochEach, updateEpochEach, updateEpoch_of_add_one_lt (by omega)]
    simp
  | succ n ih =>
    have he : e1 + ((n + 1 : ℕ) : ℤ) + 1 = (e1 + n + 1) + 1 := by push_cast; ring
    rw [updateEpochEach, ih, he, updateEpoch_next]
    simp [pow_succ, div_div]

/-- `_update_epoch(e1 + n + 1)` at once agrees with the epochs one at a time only when one
epoch is crossed, or when the record holds no value. -/
theorem updateEpoch_eq_updateEpochEach_iff (hp : p.lastEpoch < e1) (n : ℕ) :
    p.updateEpoch (e1 + n + 1) = p.updateEpochEach e1 (n + 1) ↔ n = 0 ∨ p.value = 0 := by
  rw [updateEpoch_of_add_one_lt (by omega), updateEpochEach_succ_of_lt hp]
  rcases Nat.eq_zero_or_pos n with rfl | hn
  · simp
  · have h4 : (4 : ℚ) ^ n ≠ 0 := by positivity
    simp only [mk.injEq, hn.ne', if_false, and_true, false_or]
    constructor
    · rintro ⟨-, h⟩
      exact (div_eq_zero_iff.1 h.symm).resolve_right h4
    · intro h
      simp [h]

/-- A record with value 4 last touched in epoch 0, brought to epoch 3: at once it keeps a
quarter of the value and no last value; one epoch at a time from epoch 1 it keeps a
sixteenth, and a quarter as the last value. -/
theorem idle_catchup_decays_once :
    (⟨4, 0, 0⟩ : PotLoad).updateEpoch 3 = ⟨1, 0, 3⟩ ∧
      (⟨4, 0, 0⟩ : PotLoad).updateEpochEach 1 2 = ⟨1 / 4, 1, 3⟩ := by
  have each := updateEpochEach_succ_of_lt (show (⟨4, 0, 0⟩ : PotLoad).lastEpoch < 1 by decide) 1
  refine ⟨?_, ?_⟩
  · rw [updateEpoch_of_add_one_lt (by decide)]
    norm_num
  · norm_num at each
    exact each

/-! ### Sums of records -/

/-- Records of the accumulator's epoch are added without bringing it anywhere. -/
theorem foldl_add_of_epoch (ha : a.lastEpoch = e) {ps : List PotLoad}
    (hps : ∀ q ∈ ps, q.lastEpoch = e) :
    ps.foldl add a = ⟨a.value + (ps.map value).sum, a.lastValue, e⟩ := by
  induction ps generalizing a with
  | nil =>
    subst ha
    simp
  | cons q ps ih =>
    have hq := hps q List.mem_cons_self
    rw [List.foldl_cons, add_of_le (by omega), updateEpoch_of_le (by omega), hq,
      ih rfl (fun r hr => hps r (List.mem_cons_of_mem _ hr))]
    simp [add_assoc]

/-- The fresh record takes the epoch and the value of a record of epoch `-1` or later. -/
theorem init_add (h : -1 ≤ q.lastEpoch) : init.add q = ⟨q.value, 0, q.lastEpoch⟩ := by
  rw [add_of_le h]
  rcases h.lt_or_eq with hlt | heq
  · rw [updateEpoch_of_lt hlt]
    simp [init]
  · rw [updateEpoch_of_le heq.ge]
    simp [init]

/-- Records of one epoch `e ≥ -1` sum, in any order, to the sum of their values at `e`; their
last values are dropped. -/
theorem foldl_add_init_of_epoch (he : -1 ≤ e) {ps : List PotLoad} (hne : ps ≠ [])
    (hps : ∀ q ∈ ps, q.lastEpoch = e) :
    ps.foldl add init = ⟨(ps.map value).sum, 0, e⟩ := by
  obtain ⟨q, ps, rfl⟩ := List.exists_cons_of_ne_nil hne
  have hq := hps q List.mem_cons_self
  rw [List.foldl_cons, init_add (hq ▸ he),
    foldl_add_of_epoch (a := ⟨q.value, 0, q.lastEpoch⟩) hq (fun r hr => hps r (List.mem_cons_of_mem _ hr))]
  simp

/-- Two records of different epochs: with the later one first the earlier is dropped; with the
earlier one first it is decayed into the later one. -/
theorem foldl_add_init_pair (h1 : -1 ≤ p.lastEpoch) (h : p.lastEpoch < q.lastEpoch) :
    [q, p].foldl add init = ⟨q.value, 0, q.lastEpoch⟩ ∧
      [p, q].foldl add init = ⟨p.value / 4 + q.value,
        if q.lastEpoch - p.lastEpoch = 1 then p.value else 0, q.lastEpoch⟩ := by
  refine ⟨?_, ?_⟩
  · rw [List.foldl_cons, init_add (by omega), List.foldl_cons,
      add_of_lt (p := ⟨q.value, 0, q.lastEpoch⟩) h]
    rfl
  · rw [List.foldl_cons, init_add h1, List.foldl_cons,
      add_of_le (p := ⟨p.value, 0, p.lastEpoch⟩) h.le,
      updateEpoch_of_lt (p := ⟨p.value, 0, p.lastEpoch⟩) h]
    rfl

/-- The order of two records of different epochs matters unless the earlier one is empty. -/
theorem foldl_add_init_swap_iff (h1 : -1 ≤ p.lastEpoch) (h : p.lastEpoch < q.lastEpoch) :
    [p, q].foldl add init = [q, p].foldl add init ↔ p.value = 0 := by
  obtain ⟨hqp, hpq⟩ := foldl_add_init_pair h1 h
  rw [hqp, hpq]
  simp only [mk.injEq, and_true]
  constructor
  · rintro ⟨hv, -⟩
    linarith
  · intro hv
    simp [hv]

end Lunule.Density.PotLoad

namespace Lunule.Density

open PotLoad

/-- The potential fields of `MDBalancer::get_load`: a fresh `mds_load_t` `add`s the `pot_auth`
and the `pot_all` of each dirfrag of the root, in the order `get_dirfrags` lists them. -/
def getLoad (dirs : List (PotLoad × PotLoad)) : PotLoad × PotLoad :=
  dirs.foldl (fun load d => (load.1.add d.1, load.2.add d.2)) (init, init)

/-- A record of epoch 1 with value 4 and one of epoch 2 with value 1. Added later one first, the
earlier is dropped; at epoch 2 that sum's `pot_load(2)` reads no last value, while the records'
own `pot_load(2)` read 4 and 0. -/
theorem pot_sum_depends_on_order :
    [⟨4, 0, 1⟩, ⟨1, 0, 2⟩].foldl add init = (⟨2, 4, 2⟩ : PotLoad) ∧
      [⟨1, 0, 2⟩, ⟨4, 0, 1⟩].foldl add init = (⟨1, 0, 2⟩ : PotLoad) ∧
      (([⟨1, 0, 2⟩, ⟨4, 0, 1⟩].foldl add init).potLoad 2 false).2 = 0 ∧
      ((⟨4, 0, 1⟩ : PotLoad).potLoad 2 false).2 + ((⟨1, 0, 2⟩ : PotLoad).potLoad 2 false).2 = 4 := by
  obtain ⟨later, earlier⟩ :=
    foldl_add_init_pair (p := ⟨4, 0, 1⟩) (q := ⟨1, 0, 2⟩) (by decide) (by decide)
  refine ⟨?_, later, ?_, ?_⟩
  · rw [earlier]
    norm_num
  · rw [later]
    simp [potLoad, updateEpoch]
  · simp [potLoad, updateEpoch]

end Lunule.Density
