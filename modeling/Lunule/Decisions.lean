import Mathlib.Analysis.Real.Sqrt
import Mathlib.Analysis.Complex.Exponential
import Mathlib.Data.List.Sort

/-!
The migration decisions mds0 takes in `MDBalancer::handle_ifbeat` once it holds the loads of
all `n` in-ranks. From the IOPS vector it computes the imbalance factor, a standard
deviation over the mean scaled by an urgency that grows with the largest IOPS. When the
factor reaches `mds_bal_ifthreshold`, it summarises each rank in `my_imbalance_vector`
(its own imbalance `my_if` and whether it is above the mean), sorts the summaries after the
first by decreasing `my_if`, and then, for each up rank `p` other than 0, reads the summary
at position `p`: if it is above the mean and either the rank of the largest IOPS or
imbalanced enough, that summary's rank is an exporter and gets up to three decisions, one
per importer, with the amount halving each time. mds0 itself is handled last from
position 0.

The arithmetic is exact, over the reals; the `float` casts of the decision fields are
left out.
-/

namespace Lunule.Decisions

open Classical

noncomputable section

/-- `imbalance_summary_t`, with the fields the decisions read. -/
structure Summary where
  myIf : ℝ
  whoami : ℕ
  isBigger : Bool

/-- `migration_decision_t`: the importer, the load to send and its share. -/
structure Decision where
  targetImportMds : ℕ
  targetExportLoad : ℝ
  targetExportPercent : ℝ

/-- `mds_bal_ifthreshold` and `mds_bal_presetmax`. -/
structure Config where
  ifthreshold : ℝ
  presetmax : ℝ

/-- `LUNULE_MIG_AMOUNT`. -/
def lunuleMigAmount : ℝ := 1 / 4

/-- `max_exporter_count`. -/
def maxExporterCount : ℕ := 3

def mean (xs : List ℝ) : ℝ := xs.sum / xs.length

/-- The position `max_element` finds: the first one holding the largest value. -/
def maxElementIdx (xs : List ℝ) : ℕ := xs.findIdx fun x => decide (∀ y ∈ xs, y ≤ x)

/-- The position `min_element` finds: the first one holding the smallest value. -/
def minElementIdx (xs : List ℝ) : ℕ := xs.findIdx fun x => decide (∀ y ∈ xs, x ≤ y)

/-- The imbalance factor: the standard deviation over `sqrt(n)` times the mean, `0` where
that is `0`, times `1 / (1 + e ^ (5 - 10 · max / presetmax))`. -/
def imbalanceFactor (cfg : Config) (iops : List ℝ) : ℝ :=
  let n : ℝ := iops.length
  let avg := mean iops
  let stdev := Real.sqrt ((iops.map fun x => (x - avg) * (x - avg)).sum / (n - 1))
  let degree := if Real.sqrt n * avg = 0 then 0 else stdev / (Real.sqrt n * avg)
  let maxIops := iops.getD (maxElementIdx iops) 0
  degree * (1 / (1 + Real.exp (5 - 10 * (maxIops / cfg.presetmax))))

/-- `my_imbalance_vector` as the `for_each` over the IOPS fills it. -/
def summaries (iops : List ℝ) : List Summary :=
  let n : ℝ := iops.length
  let avg := mean iops
  (List.range iops.length).map fun t =>
    let x := iops.getD t 0
    ⟨Real.sqrt ((x - avg) * (x - avg) / (n - 1)) / (Real.sqrt n * avg), t, decide (x > avg)⟩

/-- `std::sort(begin() + 1, end(), sortImporter)`: the summaries after the first by
decreasing `my_if`. -/
def sortSummaries : List Summary → List Summary
  | [] => []
  | s :: ss => s :: ss.insertionSort fun a b => b.myIf ≤ a.myIf

/-- The inner loop for one exporter: the summaries in sorted order, `send_num` the
exporter's rank and `p` the position its summary was read from, whose IOPS and load the
decision takes. `none` is the `return` out of `handle_ifbeat` when the exporter's IOPS is
at most `1`. -/
def decideLoop (iops load : List ℝ) (thr : ℝ) (minPos : ℤ) (sendNum p : ℕ) :
    ℝ → ℕ → List Summary → Option (List Decision)
  | _, _, [] => some []
  | amount, count, m :: ms =>
    if count < maxExporterCount then
      if m.whoami ≠ sendNum ∧ m.isBigger = false ∧
          (thr ≤ m.myIf ∨ (m.whoami : ℤ) = minPos) then
        if iops.getD sendNum 0 ≤ 1 then none
        else
          let f := amount * ((iops.getD p 0 - iops.getD m.whoami 0) / iops.getD p 0)
          let d : Decision := ⟨m.whoami, f * load.getD p 0, f⟩
          if amount / 2 ≤ thr then some [d]
          else (decideLoop iops load thr minPos sendNum p (amount / 2) (count + 1) ms).map (d :: ·)
      else decideLoop iops load thr minPos sendNum p amount count ms
    else some []

/-- Whether the summary read at a position makes its rank an exporter. -/
def isExporter (thr : ℝ) (maxPos : ℤ) (s : Summary) : Prop :=
  ((s.whoami : ℤ) = maxPos ∨ s.myIf > thr) ∧ s.isBigger = true

/-- The loop over the up ranks `p ≠ 0`: each exporter with the decisions sent to it. -/
def exporterLoop (iops load : List ℝ) (thr : ℝ) (maxPos minPos : ℤ) (sorted : List Summary) :
    List ℕ → Option (List (ℕ × List Decision))
  | [] => some []
  | p :: ps =>
    let s := sorted.getD p ⟨0, 0, false⟩
    if isExporter thr maxPos s then
      (decideLoop iops load thr minPos s.whoami p lunuleMigAmount 0 sorted).bind fun ds =>
        (exporterLoop iops load thr maxPos minPos sorted ps).map ((s.whoami, ds) :: ·)
    else exporterLoop iops load thr maxPos minPos sorted ps

/-- The decisions of `handle_ifbeat` on mds0 with all `n` in-ranks up: `none` when it
returns early, otherwise the exporters among ranks `1 .. n - 1` with their decisions, and
mds0's own decisions if it is an exporter. Below the threshold nothing is decided. -/
def ifbeatDecisions (cfg : Config) (iops load : List ℝ) :
    Option (List (ℕ × List Decision) × Option (List Decision)) :=
  if cfg.ifthreshold ≤ imbalanceFactor cfg iops then
    let n := iops.length
    let thr := cfg.ifthreshold / min n maxExporterCount
    -- `begin() - max_element(...)`: minus the position
    let maxPos : ℤ := -(maxElementIdx iops : ℤ)
    let minPos : ℤ := -(minElementIdx iops : ℤ)
    let sorted := sortSummaries (summaries iops)
    (exporterLoop iops load thr maxPos minPos sorted (List.range' 1 (n - 1))).bind fun ex =>
      let s := sorted.getD 0 ⟨0, 0, false⟩
      if isExporter thr maxPos s then
        (decideLoop iops load thr minPos 0 0 lunuleMigAmount 0 sorted).map fun ds => (ex, some ds)
      else some (ex, none)
  else some ([], none)

/-! ### What every decision satisfies -/

/-- A summary reads its own rank's IOPS: above the mean exactly when it says so. -/
def Reads (iops : List ℝ) (s : Summary) : Prop :=
  s.isBigger = true ↔ mean iops < iops.getD s.whoami 0

theorem summaries_reads (iops : List ℝ) : ∀ s ∈ summaries iops, Reads iops s := by
  intro s hs
  obtain ⟨t, -, rfl⟩ := List.mem_map.mp hs
  simp [Reads]

theorem sortSummaries_perm (l : List Summary) : (sortSummaries l).Perm l := by
  cases l with
  | nil => exact List.Perm.refl _
  | cons s ss => exact (List.perm_insertionSort _ ss).cons s

theorem sorted_reads (iops : List ℝ) : ∀ s ∈ sortSummaries (summaries iops), Reads iops s :=
  fun s hs => summaries_reads iops s ((sortSummaries_perm _).subset hs)

/-- The decisions of one exporter go to other ranks, each a summary not above the mean, and
there are at most `max_exporter_count` of them. -/
theorem decideLoop_sound {iops load : List ℝ} {thr : ℝ} {minPos : ℤ} {sendNum p : ℕ} :
    ∀ (ms : List Summary) (amount : ℝ) (count : ℕ) (ds : List Decision),
      decideLoop iops load thr minPos sendNum p amount count ms = some ds →
      (∀ d ∈ ds, d.targetImportMds ≠ sendNum ∧
        ∃ m ∈ ms, m.whoami = d.targetImportMds ∧ m.isBigger = false) ∧
      ds.length + count ≤ max count maxExporterCount
  | [], _, count, ds, h => by
    cases h
    simp
  | m :: ms, amount, count, ds, h => by
    unfold decideLoop at h
    split_ifs at h with hc hm hlow hstop
    · cases h
      refine ⟨?_, by simp; omega⟩
      intro d hd
      rw [List.mem_singleton] at hd
      subst hd
      exact ⟨hm.1, m, List.mem_cons_self, rfl, hm.2.1⟩
    · obtain ⟨ds', hds', rfl⟩ := Option.map_eq_some_iff.mp h
      obtain ⟨hsound, hlen⟩ := decideLoop_sound ms _ _ ds' hds'
      refine ⟨?_, by simp only [List.length_cons, maxExporterCount] at hlen hc ⊢; omega⟩
      intro d hd
      rcases List.mem_cons.mp hd with rfl | hd
      · exact ⟨hm.1, m, List.mem_cons_self, rfl, hm.2.1⟩
      · obtain ⟨hne, m', hm', hw, hb⟩ := hsound d hd
        exact ⟨hne, m', List.mem_cons_of_mem _ hm', hw, hb⟩
    · obtain ⟨hsound, hlen⟩ := decideLoop_sound ms amount count ds h
      refine ⟨fun d hd => ?_, hlen⟩
      obtain ⟨hne, m', hm', hw, hb⟩ := hsound d hd
      exact ⟨hne, m', List.mem_cons_of_mem _ hm', hw, hb⟩
    · cases h
      simp

/-- What holds of every exporter and its decisions: the exporter is above the mean, has at
most three decisions, and each goes to another rank that is not above the mean. -/
def SoundExport (iops : List ℝ) (e : ℕ) (ds : List Decision) : Prop :=
  mean iops < iops.getD e 0 ∧ ds.length ≤ maxExporterCount ∧
    ∀ d ∈ ds, d.targetImportMds ≠ e ∧ iops.getD d.targetImportMds 0 ≤ mean iops

/-- An exporter read from the sorted summaries, with the decisions of its loop. -/
theorem soundExport_of_loop {iops load : List ℝ} {thr : ℝ} {maxPos minPos : ℤ} {e p : ℕ}
    {s : Summary} {ds : List Decision} (hs : s ∈ sortSummaries (summaries iops))
    (hex : isExporter thr maxPos s) (he : s.whoami = e)
    (h : decideLoop iops load thr minPos e p lunuleMigAmount 0
      (sortSummaries (summaries iops)) = some ds) :
    SoundExport iops e ds := by
  obtain ⟨hsound, hlen⟩ := decideLoop_sound _ _ _ ds h
  refine ⟨he ▸ (sorted_reads iops s hs).mp hex.2, by simpa using hlen, fun d hd => ?_⟩
  obtain ⟨hne, m, hm, hw, hb⟩ := hsound d hd
  refine ⟨hne, ?_⟩
  have hread := sorted_reads iops m hm
  rw [← hw]
  exact not_lt.mp fun hlt => by simp [hread.mpr hlt] at hb

/-- The summary read at a position is in the vector, unless it is the default, which is
never an exporter. -/
theorem mem_of_exporter {l : List Summary} {thr : ℝ} {maxPos : ℤ} {p : ℕ}
    (hex : isExporter thr maxPos (l.getD p ⟨0, 0, false⟩)) :
    l.getD p ⟨0, 0, false⟩ ∈ l := by
  rw [List.getD_eq_getElem?_getD] at hex ⊢
  cases hp : l[p]? with
  | none =>
    rw [hp] at hex
    exact absurd hex.2 (by simp)
  | some s =>
    exact List.mem_of_getElem? hp

/-- The sort keeps the first summary, mds0's own. -/
theorem sorted_head_whoami (iops : List ℝ) :
    ((sortSummaries (summaries iops)).getD 0 ⟨0, 0, false⟩).whoami = 0 := by
  cases iops with
  | nil => rfl
  | cons x xs => simp [summaries, sortSummaries, List.range_succ_eq_map]

theorem exporterLoop_sound {iops load : List ℝ} {thr : ℝ} {maxPos minPos : ℤ} :
    ∀ (ps : List ℕ) (ex : List (ℕ × List Decision)),
      exporterLoop iops load thr maxPos minPos (sortSummaries (summaries iops)) ps = some ex →
      ∀ e ∈ ex, SoundExport iops e.1 e.2
  | [], ex, h => by
    cases h
    simp
  | p :: ps, ex, h => by
    unfold exporterLoop at h
    dsimp only at h
    split_ifs at h with hex
    · obtain ⟨ds, hds, hrest⟩ := Option.bind_eq_some_iff.mp h
      obtain ⟨ex', hex', rfl⟩ := Option.map_eq_some_iff.mp hrest
      intro e he
      rcases List.mem_cons.mp he with rfl | he
      · exact soundExport_of_loop (mem_of_exporter hex) hex rfl hds
      · exact exporterLoop_sound ps ex' hex' e he
    · exact exporterLoop_sound ps ex h

/-- Whatever `handle_ifbeat` decides, every exporter, mds0 included, is above the mean and
has at most three decisions, each to another rank not above the mean. -/
theorem ifbeatDecisions_sound {cfg : Config} {iops load : List ℝ}
    {ex : List (ℕ × List Decision)} {m0 : Option (List Decision)}
    (h : ifbeatDecisions cfg iops load = some (ex, m0)) :
    (∀ e ∈ ex, SoundExport iops e.1 e.2) ∧
      ∀ ds, m0 = some ds → SoundExport iops 0 ds := by
  unfold ifbeatDecisions at h
  split_ifs at h with hif
  · dsimp only at h
    obtain ⟨ex', hex', hrest⟩ := Option.bind_eq_some_iff.mp h
    split_ifs at hrest with h0
    · obtain ⟨ds, hds, hr⟩ := Option.map_eq_some_iff.mp hrest
      cases hr
      refine ⟨exporterLoop_sound _ _ hex', fun ds' hds' => ?_⟩
      cases hds'
      exact soundExport_of_loop (mem_of_exporter h0) h0 (sorted_head_whoami iops) hds
    · cases hrest
      exact ⟨exporterLoop_sound _ _ hex', fun _ h => by cases h⟩
  · cases h
    exact ⟨by simp, fun _ h => by cases h⟩

/-! ### A run where the decisions read positions, not ranks

Ranks 0, 1, 2 at 1000, 2000 and 9000 IOPS: the mean is 4000 and only rank 2 is above it.
Sorting puts rank 2's summary at position 1, so the loop for `p = 1` makes rank 2 an
exporter but takes IOPS and load from rank 1's entries. -/

/-- The bound the example's imbalance values are read off: `c / 16000` is below
`√v / √2 / (√3 · 4000)` when `c² ≤ v`. -/
theorem le_sqrt_ratio {c v : ℝ} (hc : 0 ≤ c) (hv : c * c ≤ v) :
    c / 16000 ≤ Real.sqrt v / Real.sqrt 2 / (Real.sqrt 3 * 4000) := by
  have h2 : Real.sqrt 2 ≤ 2 := Real.sqrt_le_iff.mpr ⟨by norm_num, by norm_num⟩
  have h3 : Real.sqrt 3 ≤ 2 := Real.sqrt_le_iff.mpr ⟨by norm_num, by norm_num⟩
  have hcv : c ≤ Real.sqrt v := Real.le_sqrt_of_sq_le (by nlinarith)
  have h3p : 0 < Real.sqrt 3 := by positivity
  rw [div_div, div_le_div_iff₀ (by norm_num) (by positivity)]
  nlinarith [mul_le_mul h2 h3 h3p.le (by norm_num)]

theorem sample_mean : mean [1000, 2000, 9000] = 4000 := by
  norm_num [mean]

theorem sample_maxElementIdx : maxElementIdx [1000, 2000, 9000] = 2 := by
  simp [maxElementIdx, List.findIdx_cons]
  norm_num

theorem sample_minElementIdx : minElementIdx [1000, 2000, 9000] = 0 := by
  simp [minElementIdx, List.findIdx_cons]
  norm_num

/-- The example is imbalanced: its factor is at least `3/8 · 1/2`, above `2/25`. -/
theorem sample_imbalanced : 2 / 25 ≤ imbalanceFactor ⟨2 / 25, 8000⟩ [1000, 2000, 9000] := by
  have hval : imbalanceFactor ⟨2 / 25, 8000⟩ [1000, 2000, 9000] =
      Real.sqrt 38000000 / Real.sqrt 2 / (Real.sqrt 3 * 4000) *
        (1 / (1 + Real.exp (-(25 / 4)))) := by
    simp [imbalanceFactor, sample_mean, sample_maxElementIdx]
    norm_num
  have hdeg := le_sqrt_ratio (c := 6000) (v := 38000000) (by norm_num) (by norm_num)
  have hexp : Real.exp (-(25 / 4)) ≤ 1 := Real.exp_le_one_iff.mpr (by norm_num)
  have hurg : 1 / 2 ≤ 1 / (1 + Real.exp (-(25 / 4))) :=
    one_div_le_one_div_of_le (by positivity) (by linarith)
  rw [hval]
  calc (2 : ℝ) / 25 ≤ 6000 / 16000 * (1 / 2) := by norm_num
    _ ≤ _ := mul_le_mul hdeg hurg (by norm_num) (by positivity)

theorem decisions_read_position_not_rank :
    ifbeatDecisions ⟨2 / 25, 8000⟩ [1000, 2000, 9000] [1, 2, 3] =
      some ([(2, [⟨0, 1 / 4, 1 / 8⟩, ⟨1, 0, 0⟩])], none) := by
  set c0 := Real.sqrt 9000000 / Real.sqrt 2 / (Real.sqrt 3 * 4000)
  set c1 := Real.sqrt 4000000 / Real.sqrt 2 / (Real.sqrt 3 * 4000)
  set c2 := Real.sqrt 25000000 / Real.sqrt 2 / (Real.sqrt 3 * 4000)
  have hsum : summaries [1000, 2000, 9000] =
      [⟨c0, 0, false⟩, ⟨c1, 1, false⟩, ⟨c2, 2, true⟩] := by
    simp [summaries, sample_mean, List.range_succ, c0, c1, c2]
    norm_num
  have h12 : c1 < c2 := by
    have hs : Real.sqrt 4000000 < Real.sqrt 25000000 :=
      Real.sqrt_lt_sqrt (by norm_num) (by norm_num)
    exact div_lt_div_of_pos_right (div_lt_div_of_pos_right hs (by positivity)) (by positivity)
  have hsort : sortSummaries (summaries [1000, 2000, 9000]) =
      [⟨c0, 0, false⟩, ⟨c2, 2, true⟩, ⟨c1, 1, false⟩] := by
    simp [hsum, sortSummaries, List.insertionSort, List.orderedInsert, h12]
  have h0 : 2 / 75 ≤ c0 :=
    le_trans (by norm_num) (le_sqrt_ratio (c := 3000) (by norm_num) (by norm_num))
  have h1 : 2 / 75 ≤ c1 :=
    le_trans (by norm_num) (le_sqrt_ratio (c := 2000) (by norm_num) (by norm_num))
  have h2 : 2 / 75 < c2 :=
    lt_of_lt_of_le (by norm_num) (le_sqrt_ratio (c := 5000) (by norm_num) (by norm_num))
  have hdec : decideLoop [1000, 2000, 9000] [1, 2, 3] (2 / 75) 0 2 1 lunuleMigAmount 0
      [⟨c0, 0, false⟩, ⟨c2, 2, true⟩, ⟨c1, 1, false⟩] =
        some [⟨0, 1 / 4, 1 / 8⟩, ⟨1, 0, 0⟩] := by
    simp [decideLoop, maxExporterCount, lunuleMigAmount, h0, h1]
    norm_num
  have hloop : exporterLoop [1000, 2000, 9000] [1, 2, 3] (2 / 75) (-2) 0
      [⟨c0, 0, false⟩, ⟨c2, 2, true⟩, ⟨c1, 1, false⟩] [1, 2] =
        some [(2, [⟨0, 1 / 4, 1 / 8⟩, ⟨1, 0, 0⟩])] := by
    simp [exporterLoop, isExporter, hdec, h2]
  have hthr :
      (2 / 25 : ℝ) / ((min ([1000, 2000, 9000] : List ℝ).length maxExporterCount : ℕ) : ℝ) =
        2 / 75 := by
    norm_num [maxExporterCount]
  unfold ifbeatDecisions
  rw [if_pos sample_imbalanced]
  dsimp only
  rw [hthr, hsort, sample_maxElementIdx, sample_minElementIdx,
    show List.range' 1 (([1000, 2000, 9000] : List ℝ).length - 1) = [1, 2] from rfl]
  simp [hloop, isExporter]

end

end Lunule.Decisions
