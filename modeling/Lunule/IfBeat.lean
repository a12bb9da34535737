import Mathlib.Algebra.Order.Field.Rat
import Lunule.OrdMap

/-!
The per-rank IOPS mds0 derives in `MDBalancer::handle_ifbeat`. Each rank's report carries
`req_rate`, the cumulative `l_mds_request` counter read through `MDSRank::get_req_rate`,
which returns it as an `int`; the report keeps it as a `double`. mds0 keeps the last value
of each rank in `old_req`, a `map<mds_rank_t, float>`, and the IOPS of rank `i` is the
difference to it divided by `mds_bal_interval`, or `0` when `old_req` has no entry yet.
Doubles hold these values exactly and are rationals here; a `float` keeps 24 significant
bits.
-/

namespace Lunule.IfBeat

/-! ### Machine conversions -/

/-- `(int) v` of a 64-bit counter: its value modulo `2 ^ 32`, read in two's complement. -/
def toInt32 (v : ℕ) : ℤ := (v : ℤ).bmod (2 ^ 32)

/-- A natural number rounded to `p` significant bits, to nearest with ties to even. -/
def roundSig (p x : ℕ) : ℕ :=
  if x < 2 ^ p then x
  else
    let s := Nat.log2 x + 1 - p
    let q := x / 2 ^ s
    let r := x % 2 ^ s
    (if 2 * r > 2 ^ s ∨ (2 * r = 2 ^ s ∧ q % 2 = 1) then q + 1 else q) * 2 ^ s

/-- The `float` an integer-valued `double` is stored as. -/
def toFloat (x : ℤ) : ℤ := if x < 0 then -(roundSig 24 x.natAbs : ℤ) else roundSig 24 x.natAbs

theorem roundSig_of_lt {p x : ℕ} (h : x < 2 ^ p) : roundSig p x = x := by
  simp [roundSig, h]

/-- Below `2 ^ 24` a `float` holds an integer exactly. -/
theorem toFloat_of_lt {x : ℤ} (h0 : -2 ^ 24 < x) (h1 : x < 2 ^ 24) : toFloat x = x := by
  unfold toFloat
  split_ifs with hx
  · rw [roundSig_of_lt (by omega)]
    omega
  · rw [roundSig_of_lt (by omega)]
    omega

theorem toInt32_of_lt {v : ℕ} (h : v < 2 ^ 31) : toInt32 v = v := by
  unfold toInt32
  rw [Int.bmod_def, if_pos]
  · exact Int.emod_eq_of_lt (by omega) (by omega)
  · rw [Int.emod_eq_of_lt (by omega) (by omega)]
    omega

/-! ### The IOPS of one rank -/

/-- One rank's pass of the loop of `handle_ifbeat`: the IOPS from the report's `req_rate`
and `old_req`, and `old_req` afterwards. -/
def iopsStep (interval : ℤ) (oldReq : List (ℕ × ℤ)) (i : ℕ) (reqRate : ℤ) : ℚ × List (ℕ × ℤ) :=
  let iops : ℚ := match OrdMap.find? oldReq i with
    | some o => ((reqRate : ℚ) - o) / interval
    | none => 0
  (iops, OrdMap.set oldReq i (toFloat reqRate))

/-- The IOPS mds0 derives for rank `i` from the counter values the rank's daemons report in
successive epochs, each read through `get_req_rate`. -/
def iopsRun (interval : ℤ) (i : ℕ) : List (ℕ × ℤ) → List ℕ → List ℚ
  | _, [] => []
  | oldReq, c :: cs =>
    let r := iopsStep interval oldReq i (toInt32 c)
    r.1 :: iopsRun interval i r.2 cs

variable {interval : ℤ} {i : ℕ}

/-- From a stored previous value on, while the counter stays below `2 ^ 24`, each IOPS is the
difference of successive counter values over the interval. -/
theorem iopsRun_from (cs : List ℕ) (hcs : ∀ c ∈ cs, c < 2 ^ 24) :
    ∀ (oldReq : List (ℕ × ℤ)) (prev : ℕ), OrdMap.find? oldReq i = some (prev : ℤ) →
      iopsRun interval i oldReq cs =
        List.zipWith (fun a b : ℕ => ((b : ℚ) - a) / interval) (prev :: cs) cs := by
  induction cs with
  | nil => intro _ _ _; rfl
  | cons c cs ih =>
    intro oldReq prev hprev
    have hc : c < 2 ^ 24 := hcs c List.mem_cons_self
    have hread : toInt32 c = c := toInt32_of_lt (by omega)
    have hstore : toFloat c = c := toFloat_of_lt (by omega) (by omega)
    unfold iopsRun iopsStep
    rw [hread, hprev, hstore]
    dsimp only
    rw [ih (fun c' hc' => hcs c' (List.mem_cons_of_mem _ hc')) _ c (OrdMap.find?_set_self _ _ _)]
    simp

/-- For one daemon whose counter stays below `2 ^ 24`, the first report gives `0` and each
later one the difference to the one before over the interval. -/
theorem iopsRun_deltas (c : ℕ) (cs : List ℕ) (hcs : ∀ c' ∈ c :: cs, c' < 2 ^ 24) :
    iopsRun interval i [] (c :: cs) =
      0 :: List.zipWith (fun a b : ℕ => ((b : ℚ) - a) / interval) (c :: cs) cs := by
  have hc : c < 2 ^ 24 := hcs c List.mem_cons_self
  unfold iopsRun iopsStep
  rw [toInt32_of_lt (by omega), toFloat_of_lt (by omega) (by omega)]
  dsimp only
  exact congrArg _ (iopsRun_from cs (fun c' hc' => hcs c' (List.mem_cons_of_mem _ hc')) _ c
    (OrdMap.find?_set_self _ _ _))

/-- Three runs of one rank's reports with `mds_bal_interval = 10`. A daemon replaced after
reporting `150` whose successor reports `20` gets IOPS `-13`, not the `0` of a first report.
A counter that passes `2 ^ 31` is read by `get_req_rate` as a negative `int`. A counter that
stays at `2 ^ 24 + 1` is stored in `old_req` as `2 ^ 24` and gets IOPS `1/10`. -/
theorem iops_not_request_delta :
    iopsRun 10 1 [] [100, 150, 20] = [0, 5, -13] ∧
      iopsRun 10 1 [] [2 ^ 31 - 256, 2 ^ 31] = [0, (-2 ^ 32 + 256) / 10] ∧
      iopsRun 10 1 [] [2 ^ 24 + 1, 2 ^ 24 + 1] = [0, 1 / 10] := by
  decide +kernel

end Lunule.IfBeat
