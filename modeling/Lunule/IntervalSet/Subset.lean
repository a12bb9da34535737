import Lunule.IntervalSet.Intersection

/-!
`subset_of(big)`, with the walk `subset_size_sym` it takes when the two sets are of
similar size, and the builders `subset_of(other, start, end)` and `span_of(other, start,
len)` of `include/interval_set.h`.

The builders fill an empty set with `insert`; they are proved with the `Progress` of the
intersection walks, advanced by `insert` instead of a bare map insert.
-/

namespace Lunule

namespace IntervalSet

open OrdMap Intervals

/-! ### The model -/

/-- The `do { ++pa; ++pb; } while` loop of `subset_size_sym`: step both walks past the
intervals they share. -/
def skipRun : List (U64 × U64) → List (U64 × U64) → List (U64 × U64) × List (U64 × U64)
  | p :: pa, q :: pb => if p = q then skipRun pa pb else (p :: pa, q :: pb)
  | pa, pb => (pa, pb)

/-- `skipRun` steps both walks past one common run `C`. -/
theorem skipRun_eq : ∀ pa pb : List (U64 × U64),
    ∃ C, pa = C ++ (skipRun pa pb).1 ∧ pb = C ++ (skipRun pa pb).2
  | p :: pa, q :: pb => by
    unfold skipRun
    split_ifs with h
    · obtain ⟨C, h1, h2⟩ := skipRun_eq pa pb
      exact ⟨p :: C, by rw [List.cons_append, ← h1], by rw [List.cons_append, ← h2, h]⟩
    · exact ⟨[], rfl, rfl⟩
  | [], _ => ⟨[], rfl, rfl⟩
  | _ :: _, [] => ⟨[], rfl, rfl⟩

theorem skipRun_length (pa pb : List (U64 × U64)) :
    (skipRun pa pb).1.length ≤ pa.length ∧ (skipRun pa pb).2.length ≤ pb.length := by
  obtain ⟨C, h1, h2⟩ := skipRun_eq pa pb
  constructor
  · conv_rhs => rw [h1]
    simp
  · conv_rhs => rw [h2]
    simp

set_option linter.unusedVariables false in
/-- The walk of `subset_size_sym(b)`: `pa` walks this set and `pb` walks `b`. -/
def subsetWalk : List (U64 × U64) → List (U64 × U64) → Bool
  | [], _ => true
  | _ :: _, [] => false
  | p :: pa, q :: pb =>
    -- skip the intervals of `b` that end by the start of `p`
    match h : (q :: pb).dropWhile fun e => decide (e.1 + e.2 ≤ p.1) with
    | [] => false
    | q' :: pb' =>
      if p = q' then
        let r := skipRun pa pb'
        subsetWalk r.1 r.2
      else if p.1 < q'.1 then false
      else if q'.1 + q'.2 < p.1 + p.2 then false
      else subsetWalk pa (q' :: pb')
termination_by pa pb => pa.length + pb.length
decreasing_by
  all_goals
    have hd := congrArg List.length h
    have := List.length_dropWhile_le (fun e : U64 × U64 => decide (e.1 + e.2 ≤ p.1)) (q :: pb)
    simp only [List.length_cons] at hd this ⊢
  · have := skipRun_length pa pb'
    omega
  · omega

/-- `subset_of(big)`: whether this set is a subset of `big`. -/
def subsetOf (s big : IntervalSet) : Option Bool :=
  if s.size = 0 then some true
  else if big.size < s.size then some false
  else
    -- `range_end()` asserts that its set is not empty
    (s.rangeEnd.bind fun e => big.rangeEnd.map fun be => (e, be)).map fun r =>
      if r.2 < r.1 then false
      else if big.size.tdiv s.size < 10 then subsetWalk s.m big.m
      else s.m.all fun p => big.containsRange p.1 p.2

/-- The `while` loop of `subset_of(other, start, end)`: copy the intervals of `other`
from `p` on into `this`, cut at `en`. -/
def subsetLoop (this : IntervalSet) (start en : U64) : List (U64 × U64) → Option IntervalSet
  | [] => some this
  | p :: rest =>
    if p.1 < start then none
    else if en ≤ p.1 then some this
    else if en ≤ p.1 + p.2 then (this.insert p.1 (en - p.1)).map Prod.fst
    else (this.insert p.1 p.2).bind fun r => subsetLoop r.1 start en rest

/-- `subset_of(other, start, end)`: the part of `other` in `[start, end)`. -/
def subsetOfRange (other : IntervalSet) (start en : U64) : Option IntervalSet :=
  if en < start then none
  else if en = start then some empty
  else
    match findInc other.m start with
    | [] => some empty
    | p :: rest =>
      if p.1 < start then
        if en ≤ p.1 + p.2 then (empty.insert start (en - start)).map Prod.fst
        else (empty.insert start (p.1 + p.2 - start)).bind fun r =>
          subsetLoop r.1 start en rest
      else subsetLoop empty start en (p :: rest)

/-- The `while` loop of `span_of(other, start, len)`: copy the intervals of `other` from
`p` on into `this` until `len` values are in. -/
def spanLoop (this : IntervalSet) (len : U64) : List (U64 × U64) → Option IntervalSet
  | [] => some this
  | p :: rest =>
    if len = 0 then some this
    else if p.2 < len then (this.insert p.1 p.2).bind fun r => spanLoop r.1 (len - p.2) rest
    else (this.insert p.1 len).map Prod.fst

/-- `span_of(other, start, len)`: the first `len` values of `other` from `start` on. -/
def spanOf (other : IntervalSet) (start len : U64) : Option IntervalSet :=
  match findInc other.m start with
  | [] => some empty
  | p :: rest =>
    if p.1 < start then
      if p.1 + p.2 < start then some empty
      else if p.1 + p.2 < start + len then
        let howmuch := p.2 - (start - p.1)
        (empty.insert start howmuch).bind fun r => spanLoop r.1 (len - howmuch) rest
      else (empty.insert start len).map Prod.fst
    else spanLoop empty len (p :: rest)

/-! ### `subset_of(big)` -/

variable {m m' pa pb : List (U64 × U64)} {p q : U64 × U64}

/-- A walk over `b` may skip the intervals that end by the start of the walk over `a`:
they hold nothing of `a`. -/
theorem subset_dropWhile (ha : Canon (p :: pa)) (hb : Canon pb) :
    Intervals.den (nat (p :: pa)) ⊆ Intervals.den (nat pb) ↔
      Intervals.den (nat (p :: pa)) ⊆
        Intervals.den (nat (pb.dropWhile fun e => decide (e.1 + e.2 ≤ p.1))) := by
  have hsplit := List.takeWhile_append_dropWhile (p := fun e : U64 × U64 => decide (e.1 + e.2 ≤ p.1))
    (l := pb)
  constructor
  · intro h x hx
    have hxb := h hx
    rw [← hsplit, nat_append, den_append, Finset.mem_union] at hxb
    rcases hxb with hxb | hxb
    · obtain ⟨e, he, _, _⟩ := mem_den_nat.mp hxb
      have hle := of_mem_takeWhile (fun e : U64 × U64 => e.1 + e.2 ≤ p.1) he
      rw [Fin.le_def, add_val hb.bounded ((List.takeWhile_sublist _).subset he)] at hle
      have := ha.le_of_mem hx
      omega
    · exact hxb
  · intro h x hx
    have := h hx
    rw [← hsplit, nat_append, den_append]
    exact Finset.mem_union_right _ this

/-- Two walks that go on from one shared run of intervals: the run is in both sets, and
what follows in `a` lies beyond it. -/
theorem subset_append_run {C : List (U64 × U64)} (ha : Canon (C ++ pa)) :
    Intervals.den (nat (C ++ pa)) ⊆ Intervals.den (nat (C ++ pb)) ↔
      Intervals.den (nat pa) ⊆ Intervals.den (nat pb) := by
  have hc := ha.coalesced
  rw [nat_append] at hc
  simp only [nat_append, den_append]
  constructor
  · intro h x hx
    have hx' := h (Finset.mem_union_right _ hx)
    rw [Finset.mem_union] at hx'
    rcases hx' with hx' | hx'
    · obtain ⟨e, he, _, h2⟩ := mem_den.mp hx'
      obtain ⟨f, hf, h3, _⟩ := mem_den.mp hx
      have := (coalesced_append.mp hc).2.2 e he f hf
      omega
    · exact hx'
  · intro h
    exact Finset.union_subset_union le_rfl h

/-- `subset_size_sym(b)` decides whether `a` is a subset of `b`. -/
theorem subsetWalk_iff (pa pb : List (U64 × U64)) :
    Canon pa → Canon pb →
    (subsetWalk pa pb = true ↔ Intervals.den (nat pa) ⊆ Intervals.den (nat pb)) := by
  fun_induction subsetWalk pa pb with
  | case1 pb =>
    intro _ _
    simp
  | case2 p pa =>
    intro ha _
    simp only [Bool.false_eq_true, false_iff, nat_nil, den_nil, Finset.subset_empty]
    exact Finset.ne_empty_of_mem (start_mem_den ha.head_pos)
  | case3 p pa q pb hd =>
    intro ha hb
    rw [subset_dropWhile ha hb, hd, nat_nil, den_nil]
    simp only [Bool.false_eq_true, false_iff, Finset.subset_empty]
    exact Finset.ne_empty_of_mem (start_mem_den ha.head_pos)
  | case4 pa q pb p pb' r hd ih =>
    intro ha hb
    have hb' : Canon (p :: pb') := hd ▸ hb.sublist (List.dropWhile_sublist _)
    obtain ⟨C, h1, h2⟩ := skipRun_eq pa pb'
    have e1 : p :: pa = (p :: C) ++ (skipRun pa pb').1 := by rw [List.cons_append, ← h1]
    have e2 : p :: pb' = (p :: C) ++ (skipRun pa pb').2 := by rw [List.cons_append, ← h2]
    have hc : Canon ((p :: C) ++ (skipRun pa pb').1) := e1 ▸ ha
    rw [ih (ha.tail.sublist (h1 ▸ List.sublist_append_right C _))
      (hb'.tail.sublist (h2 ▸ List.sublist_append_right C _)), subset_dropWhile ha hb, hd, e1, e2]
    exact (subset_append_run hc).symm
  | case5 p pa q pb q' pb' hd hne hlt =>
    intro ha hb
    have hb' : Canon (q' :: pb') := hd ▸ hb.sublist (List.dropWhile_sublist _)
    rw [subset_dropWhile ha hb, hd]
    simp only [Bool.false_eq_true, false_iff, Finset.not_subset]
    refine ⟨p.1.val, start_mem_den ha.head_pos, fun hx => ?_⟩
    have := hb'.le_of_mem hx
    rw [Fin.lt_def] at hlt
    omega
  | case6 p pa q pb q' pb' hd hne hge hlt =>
    intro ha hb
    have hb' : Canon (q' :: pb') := hd ▸ hb.sublist (List.dropWhile_sublist _)
    have hq' : ¬ q'.1 + q'.2 ≤ p.1 := by
      have := List.head_dropWhile_not (fun e : U64 × U64 => decide (e.1 + e.2 ≤ p.1))
        (l := q :: pb) (by rw [hd]; exact List.cons_ne_nil _ _)
      simp only [hd, List.head_cons, decide_eq_false_iff_not] at this
      exact this
    rw [Fin.le_def, hb'.head_end] at hq'
    rw [Fin.lt_def, hb'.head_end, ha.head_end] at hlt
    rw [subset_dropWhile ha hb, hd]
    simp only [Bool.false_eq_true, false_iff, Finset.not_subset]
    refine ⟨q'.1.val + q'.2.val, ?_, hb'.end_not_mem List.mem_cons_self⟩
    rw [nat_cons, den_cons, Finset.mem_union, Finset.mem_Ico]
    exact Or.inl ⟨by omega, hlt⟩
  | case7 p pa q pb q' pb' hd hne hge hle ih =>
    intro ha hb
    have hb' : Canon (q' :: pb') := hd ▸ hb.sublist (List.dropWhile_sublist _)
    rw [Fin.lt_def, not_lt] at hge
    rw [Fin.lt_def, hb'.head_end, ha.head_end, not_lt] at hle
    rw [ih ha.tail hb', subset_dropWhile ha hb, hd,
      show Intervals.den (nat (p :: pa)) =
        Finset.Ico p.1.val (p.1.val + p.2.val) ∪ Intervals.den (nat pa) from rfl,
      Finset.union_subset_iff]
    have hin : Finset.Ico p.1.val (p.1.val + p.2.val) ⊆ Intervals.den (nat (q' :: pb')) := by
      intro x hx
      rw [Finset.mem_Ico] at hx
      rw [nat_cons, den_cons, Finset.mem_union, Finset.mem_Ico]
      exact Or.inl ⟨by omega, by omega⟩
    exact ⟨fun h => ⟨hin, h⟩, fun h => h.2⟩

theorem WF.m_ne_nil {s : IntervalSet} (hs : WF s) (h0 : s.size ≠ 0) : s.m ≠ [] := fun hm =>
  h0 (by rw [hs.size_eq_card, hs.den_eq_empty.mpr hm, Finset.card_empty]; rfl)

/-- `subset_size_sym(big)`: whether `s` lies in `big`. -/
theorem subsetWalk_spec {s big : IntervalSet} (hs : WF s) (hbig : WF big) :
    subsetWalk s.m big.m = decide (s.den ⊆ big.den) := by
  rw [Bool.eq_iff_iff, decide_eq_true_iff]
  exact subsetWalk_iff _ _ hs.canon hbig.canon

/-- `contains(start, len)` over every interval of `s`: whether `s` lies in `big`. -/
theorem all_containsRange {s big : IntervalSet} (hs : WF s) (hbig : WF big) :
    (s.m.all fun p => big.containsRange p.1 p.2) = decide (s.den ⊆ big.den) := by
  rw [Bool.eq_iff_iff, List.all_eq_true, decide_eq_true_iff]
  constructor
  · intro h x hx
    obtain ⟨p, hp, h1, h2⟩ := mem_den_nat.mp hx
    have := (containsRange_iff hbig p.1 p.2 (pos_of_mem hs.coalesced hp) (hs.bounded p hp)).mp
      (h p hp)
    exact this (Finset.mem_Ico.mpr ⟨h1, h2⟩)
  · intro h p hp
    rw [containsRange_iff hbig p.1 p.2 (pos_of_mem hs.coalesced hp) (hs.bounded p hp)]
    intro x hx
    rw [Finset.mem_Ico] at hx
    exact h (mem_den_nat.mpr ⟨p, hp, hx.1, hx.2⟩)

/-- `subset_of(big)` of two well-formed sets says whether the one is a subset of the
other, on whichever path it takes. -/
theorem subsetOf_spec {s big : IntervalSet} (hs : WF s) (hbig : WF big) :
    s.subsetOf big = some (decide (s.den ⊆ big.den)) := by
  unfold subsetOf
  have hcs := hs.size_eq_card
  have hcb := hbig.size_eq_card
  by_cases h0 : s.size = 0
  · rw [if_pos h0]
    have : s.den = ∅ := Finset.card_eq_zero.mp (by omega)
    simp [this]
  · rw [if_neg h0]
    by_cases hlt : big.size < s.size
    · rw [if_pos hlt]
      have : ¬ s.den ⊆ big.den := fun h => by
        have := Finset.card_le_card h
        omega
      simp [this]
    · rw [if_neg hlt]
      have hbne : big.m ≠ [] := hbig.m_ne_nil (by omega)
      obtain ⟨e, he, he1, -⟩ := rangeEnd_spec hs (hs.m_ne_nil h0)
      obtain ⟨be, hbe, -, hbe2⟩ := rangeEnd_spec hbig hbne
      rw [he, hbe, Option.bind_some, Option.map_some, Option.map_some]
      congr 1
      dsimp only
      split_ifs with hlt2
      · have : ¬ s.den ⊆ big.den := fun h => by
          have := hbe2 _ (h he1)
          rw [Fin.lt_def] at hlt2
          omega
        simp [this]
      · exact subsetWalk_spec hs hbig
      · exact all_containsRange hs hbig

/-- The fast paths agree with the plain ones on well-formed sets: `intersection_size_asym`
gives the map and `_size` of the merge walk of `intersection_of`, in either order, and that
is `s ∩ l`; `subset_size_sym` answers as the loop of `contains` does, whether `s ⊆ l`. -/
theorem fast_paths_agree {s l : IntervalSet} (hs : WF s) (hl : WF l) :
    (s.m ≠ [] → ∃ i, intersectionSizeAsym s l empty = some i ∧
      (intersectWalk 0 [] s.m l.m).map (fun r => (⟨r.1, r.2⟩ : IntervalSet)) = some i ∧
      (intersectWalk 0 [] l.m s.m).map (fun r => (⟨r.1, r.2⟩ : IntervalSet)) = some i ∧
      WF i ∧ i.den = s.den ∩ l.den) ∧
    subsetWalk s.m l.m = (s.m.all fun p => l.containsRange p.1 p.2) ∧
    subsetWalk s.m l.m = decide (s.den ⊆ l.den) :=
  ⟨intersection_paths_agree hs hl, (subsetWalk_spec hs hl).trans (all_containsRange hs hl).symm,
    subsetWalk_spec hs hl⟩

/-- `insert(2^64 - 2, 2)` on the empty set builds a coalesced set with the right `_size` whose
interval ends at `2 ^ 64`. Its end wraps to `0`, so both intersection walks of the set with itself
give the empty set, and both subset walks find it is not a subset of itself. -/
theorem wrapped_end_breaks_fast_paths :
    ∃ s, (empty.insert ⟨2 ^ 64 - 2, by decide⟩ 2).map Prod.fst = some s ∧
      Coalesced (nat s.m) ∧ s.size = total (nat s.m) ∧ s.den.Nonempty ∧
      intersectionSizeAsym s s empty = some empty ∧
      (intersectWalk 0 [] s.m s.m).map (fun r => (⟨r.1, r.2⟩ : IntervalSet)) = some empty ∧
      subsetWalk s.m s.m = false ∧ (s.m.all fun p => s.containsRange p.1 p.2) = false := by
  refine ⟨⟨2, [(⟨2 ^ 64 - 2, by decide⟩, 2)]⟩, rfl, by unfold Coalesced Gapped; decide, rfl,
    ⟨2 ^ 64 - 2, by decide⟩, ?_, ?_, by rw [subsetWalk]; rfl, rfl⟩
  · rw [intersectionSizeAsym]
    dsimp only
    rw [asymLoop]
    rfl
  · rw [intersectWalk, if_pos (by decide), intersectWalk.eq_def]
    rfl

/-- A one-interval set inside the first interval of a two-interval set. -/
def sampleInner : IntervalSet := ⟨2, [(6, 2)]⟩

def sampleOuter : IntervalSet := ⟨15, [(5, 10), (20, 5)]⟩

theorem fast_paths_agree_sample :
    WF sampleInner ∧ WF sampleOuter ∧
      ((sampleInner.m ≠ [] → ∃ i, intersectionSizeAsym sampleInner sampleOuter empty = some i ∧
        (intersectWalk 0 [] sampleInner.m sampleOuter.m).map
          (fun r => (⟨r.1, r.2⟩ : IntervalSet)) = some i ∧
        (intersectWalk 0 [] sampleOuter.m sampleInner.m).map
          (fun r => (⟨r.1, r.2⟩ : IntervalSet)) = some i ∧
        WF i ∧ i.den = sampleInner.den ∩ sampleOuter.den) ∧
      subsetWalk sampleInner.m sampleOuter.m =
        (sampleInner.m.all fun p => sampleOuter.containsRange p.1 p.2) ∧
      subsetWalk sampleInner.m sampleOuter.m = decide (sampleInner.den ⊆ sampleOuter.den)) := by
  have hs : WF sampleInner :=
    ⟨by unfold Coalesced Gapped; decide, by simp [sampleInner], rfl, by simp [sampleInner, nat, total]⟩
  have hl : WF sampleOuter :=
    ⟨by unfold Coalesced Gapped; decide, by simp [sampleOuter], rfl, by simp [sampleOuter, nat, total]⟩
  exact ⟨hs, hl, fast_paths_agree hs hl⟩

/-! ### Building a set with `insert` -/

variable {T R R' : Finset ℕ}

/-- `insert` into a set being built of a first part `[start, start + len)` of what it
still has to take in. -/
theorem Progress.insert_spec {s : IntervalSet} (h : Progress T s.size s.m R)
    (hT : T.card < 2 ^ 63) {start len : U64} (hlen : 0 < len.val)
    (hend : start.val + len.val < 2 ^ 64) (hsub : Finset.Ico start.val (start.val + len.val) ⊆ R) :
    ∃ s' ps pl, s.insert start len = some (s', ps, pl) ∧ WF s' ∧
      s'.den = s.den ∪ Finset.Ico start.val (start.val + len.val) := by
  have hs : WF s := h.wf
  have hst : start.val ∈ R := hsub (Finset.mem_Ico.mpr ⟨le_rfl, by omega⟩)
  have hdisj : Disjoint s.den (Finset.Ico start.val (start.val + len.val)) := by
    rw [Finset.disjoint_left]
    intro x hx hx'
    obtain ⟨e, he, _, _⟩ := mem_den_nat.mp hx
    have := h.before e he _ hst
    rw [Finset.mem_Ico] at hx'
    omega
  have hcard : total (nat s.m) + len.val < 2 ^ 63 := by
    have hsubT : s.den ∪ Finset.Ico start.val (start.val + len.val) ⊆ T := by
      rw [← h.den_eq]
      exact Finset.union_subset_union le_rfl hsub
    have := Finset.card_le_card hsubT
    rw [Finset.card_union_of_disjoint hdisj, Nat.card_Ico, Nat.add_sub_cancel_left] at this
    have := hs.size_eq_card
    have := hs.size_eq
    omega
  obtain ⟨s', ps, pl, hins, hwf, hden, -⟩ := IntervalSet.insert_spec hs hlen hend hdisj hcard
  exact ⟨s', ps, pl, hins, hwf, hden⟩

/-- `insert` of the first interval `[start, start + len)` of what a set being built still
has to take in. -/
theorem Progress.insert {s : IntervalSet} (h : Progress T s.size s.m R) (hT : T.card < 2 ^ 63)
    {start len : U64} (hlen : 0 < len.val) (hend : start.val + len.val < 2 ^ 64)
    (hR : R = Finset.Ico start.val (start.val + len.val) ∪ R')
    (hR' : ∀ x ∈ R', start.val + len.val < x) :
    ∃ s' ps pl, s.insert start len = some (s', ps, pl) ∧ Progress T s'.size s'.m R' := by
  obtain ⟨s', ps, pl, hins, hwf, hden⟩ :=
    h.insert_spec hT hlen hend (hR ▸ Finset.subset_union_left)
  have hst : start.val ∈ R := hR ▸ Finset.mem_union_left _ (Finset.mem_Ico.mpr ⟨le_rfl, by omega⟩)
  refine ⟨s', ps, pl, hins, hwf, ?_, fun e he x hx => ?_⟩
  · show s'.den ∪ R' = T
    rw [hden, Finset.union_assoc, ← hR]
    exact h.den_eq
  · have hpos := pos_of_mem hwf.coalesced he
    have hlast : e.1.val + e.2.val - 1 ∈ s'.den := mem_den_nat.mpr ⟨e, he, by omega, by omega⟩
    rw [hden, Finset.mem_union] at hlast
    have := hR' x hx
    rcases hlast with hl | hl
    · obtain ⟨f, hf, _, _⟩ := mem_den_nat.mp hl
      have := h.before f hf _ hst
      omega
    · rw [Finset.mem_Ico] at hl
      omega

/-- What a walk from `p` has in `[a, b)`. -/
theorem den_cons_inter_Ico (a b : ℕ) :
    Intervals.den (nat (p :: m)) ∩ Finset.Ico a b =
      Finset.Ico (max p.1.val a) (min (p.1.val + p.2.val) b) ∪
        Intervals.den (nat m) ∩ Finset.Ico a b := by
  rw [nat_cons, den_cons, Finset.union_inter_distrib_right, Finset.Ico_inter_Ico]

/-- Nothing of a walk from `p` lies in a range that ends by the end of `p`, past `p`. -/
theorem Canon.tail_inter_Ico (h : Canon (p :: m)) {a b : ℕ} (hb : b ≤ p.1.val + p.2.val) :
    Intervals.den (nat m) ∩ Finset.Ico a b = ∅ := by
  rw [Finset.eq_empty_iff_forall_notMem]
  intro x hx
  rw [Finset.mem_inter, Finset.mem_Ico] at hx
  have := h.lt_of_mem_tail hx.1
  omega

/-- The intervals after the first start at or beyond its end. -/
theorem Canon.le_tail (h : Canon (p :: m)) {u : ℕ} (hu : u ≤ p.1.val + p.2.val) :
    ∀ q ∈ m, u ≤ q.1.val := fun q hq => by
  have := pos_of_mem h.tail.coalesced hq
  have := h.lt_of_mem_tail (mem_den_nat.mpr ⟨q, hq, le_rfl, by omega⟩)
  omega

/-- The builders start from the empty set. -/
theorem progress_empty (T : Finset ℕ) : Progress T empty.size empty.m T := progress_start T

/-- A set built to the end holds `T`. -/
theorem Progress.result {r : IntervalSet} (h : Progress T r.size r.m ∅) : WF r ∧ r.den = T :=
  h.done

/-- The loop of `subset_of(other, start, end)` takes in all of `[start, end)` that the rest
of `other` has. -/
theorem subsetLoop_spec (hT : T.card < 2 ^ 63) {start en : U64} :
    ∀ (rest : List (U64 × U64)) (t : IntervalSet), Canon rest →
      (∀ p ∈ rest, start.val ≤ p.1.val) →
      Progress T t.size t.m (Intervals.den (nat rest) ∩ Finset.Ico start.val en.val) →
      ∃ r, subsetLoop t start en rest = some r ∧ Progress T r.size r.m ∅
  | [], t, _, _, h => ⟨t, rfl, by simpa using h⟩
  | p :: rest, t, hc, hst, h => by
    have hp := hst p List.mem_cons_self
    have hpos := hc.head_pos
    have hpe := hc.head_end
    have hpb := hc.bounded p List.mem_cons_self
    rw [den_cons_inter_Ico, max_eq_left hp] at h
    unfold subsetLoop
    rw [if_neg (by rw [Fin.lt_def]; omega)]
    by_cases hen : en ≤ p.1
    · rw [if_pos hen]
      rw [Fin.le_def] at hen
      rw [min_eq_right (by omega), Finset.Ico_eq_empty_of_le hen, Finset.empty_union,
        hc.tail_inter_Ico (by omega)] at h
      exact ⟨t, rfl, h⟩
    · rw [if_neg hen]
      rw [Fin.le_def, not_le] at hen
      by_cases hcut : en ≤ p.1 + p.2
      · rw [if_pos hcut]
        rw [Fin.le_def, hpe] at hcut
        rw [min_eq_right hcut, hc.tail_inter_Ico hcut] at h
        have hv : (en - p.1).val = en.val - p.1.val :=
          Fin.coe_sub_iff_le.mpr (by rw [Fin.le_def]; omega)
        obtain ⟨r, ps, pl, hins, hP⟩ := h.insert hT (by omega : 0 < (en - p.1).val)
          (by omega : p.1.val + (en - p.1).val < 2 ^ 64) (by rw [hv, Nat.add_sub_cancel' (by omega)])
          (fun x hx => absurd hx (Finset.notMem_empty x))
        exact ⟨r, by rw [hins]; rfl, hP⟩
      · rw [if_neg hcut]
        rw [Fin.le_def, hpe, not_le] at hcut
        rw [min_eq_left hcut.le] at h
        obtain ⟨r, ps, pl, hins, hP⟩ := h.insert hT hpos hpb rfl fun x hx => by
          have := hc.lt_of_mem_tail (Finset.mem_inter.mp hx).1
          omega
        obtain ⟨r', hr', hP'⟩ := subsetLoop_spec hT rest r hc.tail (hc.le_tail (by omega)) hP
        exact ⟨r', by rw [hins, Option.bind_some]; exact hr', hP'⟩

/-- `subset_of(other, start, end)` of a well-formed set and a range that does not run
backwards builds the well-formed part of `other` in `[start, end)`. -/
theorem subsetOfRange_spec {other : IntervalSet} {start en : U64} (ho : WF other)
    (hse : start ≤ en) :
    ∃ r, other.subsetOfRange start en = some r ∧ WF r ∧
      r.den = other.den ∩ Finset.Ico start.val en.val := by
  set T := other.den ∩ Finset.Ico start.val en.val with hTdef
  have hT : T.card < 2 ^ 63 :=
    lt_of_le_of_lt (Finset.card_le_card Finset.inter_subset_left) ho.card_lt
  unfold subsetOfRange
  rw [if_neg (not_lt.mpr hse)]
  by_cases heq : en = start
  · rw [if_pos heq]
    refine ⟨empty, rfl, wf_empty, ?_⟩
    rw [den_empty, hTdef, heq, Finset.Ico_self, Finset.inter_empty]
  rw [if_neg heq]
  have hlt : start.val < en.val :=
    lt_of_le_of_ne (Fin.le_def.mp hse) fun h => heq (Fin.ext h).symm
  have hfind : T = Intervals.den (nat (findInc other.m start)) ∩ Finset.Ico start.val en.val := by
    have hf : ∀ Y : Finset ℕ, (Finset.Ico start.val en.val ∩ Y).filter (fun x => start.val ≤ x) =
        Y ∩ Finset.Ico start.val en.val := fun Y => by
      rw [Finset.inter_comm]
      exact Finset.filter_true_of_mem fun x hx => (Finset.mem_Ico.mp (Finset.mem_inter.mp hx).2).1
    have := findInc_above ho.canon start le_rfl (Finset.Ico start.val en.val)
    rw [hf, hf] at this
    exact this
  split
  next hnil =>
    refine ⟨empty, rfl, wf_empty, ?_⟩
    rw [den_empty, hfind, hnil, nat_nil, den_nil, Finset.empty_inter]
  next p rest hm =>
    have hc : Canon (p :: rest) := hm ▸ ho.canon.findInc start
    have hin := findInc_head ho.canon hm
    have hpe := hc.head_end
    rw [hm] at hfind
    split_ifs with hps hcut
    · rw [Fin.lt_def] at hps
      rw [Fin.le_def, hpe] at hcut
      rw [den_cons_inter_Ico, max_eq_right hps.le, min_eq_right hcut, hc.tail_inter_Ico hcut] at hfind
      have hv : (en - start).val = en.val - start.val := Fin.coe_sub_iff_le.mpr hse
      obtain ⟨r, ps, pl, hins, hP⟩ := (progress_empty T).insert hT
        (by omega : 0 < (en - start).val) (by omega : start.val + (en - start).val < 2 ^ 64)
        (by rw [hv, Nat.add_sub_cancel' hlt.le]; exact hfind)
        (fun x hx => absurd hx (Finset.notMem_empty x))
      exact ⟨r, by rw [hins]; rfl, hP.result⟩
    · rw [Fin.lt_def] at hps
      rw [Fin.le_def, hpe, not_le] at hcut
      rw [den_cons_inter_Ico, max_eq_right hps.le, min_eq_left hcut.le] at hfind
      have hv : (p.1 + p.2 - start).val = p.1.val + p.2.val - start.val := by
        rw [Fin.coe_sub_iff_le.mpr (by rw [Fin.le_def, hpe]; omega), hpe]
      obtain ⟨r, ps, pl, hins, hP⟩ := (progress_empty T).insert hT
        (by omega : 0 < (p.1 + p.2 - start).val)
        (by omega : start.val + (p.1 + p.2 - start).val < 2 ^ 64)
        (by rw [hv, Nat.add_sub_cancel' hin.le]; exact hfind)
        (fun x hx => by
          have := hc.lt_of_mem_tail (Finset.mem_inter.mp hx).1
          omega)
      obtain ⟨r', hr', hP'⟩ := subsetLoop_spec hT rest r hc.tail (hc.le_tail hin.le) hP
      exact ⟨r', by rw [hins, Option.bind_some]; exact hr', hP'.result⟩
    · rw [Fin.lt_def, not_lt] at hps
      have hst : ∀ q ∈ p :: rest, start.val ≤ q.1.val := by
        intro q hq
        rcases List.mem_cons.mp hq with rfl | hq
        · exact hps
        · exact hc.le_tail (by omega) q hq
      have h0 : Progress T empty.size empty.m
          (Intervals.den (nat (p :: rest)) ∩ Finset.Ico start.val en.val) := by
        rw [← hfind]
        exact progress_empty T
      obtain ⟨r, hr, hP⟩ := subsetLoop_spec hT (p :: rest) empty hc hst h0
      exact ⟨r, hr, hP.result⟩

/-! ### `span_of` -/

/-- From a point in its first interval on, a walk holds the rest of that interval and its
tail. -/
theorem Canon.filter_from (h : Canon (p :: m)) {u : ℕ} (hu : u ≤ p.1.val + p.2.val) :
    (Intervals.den (nat (p :: m))).filter (fun x => u ≤ x) =
      Finset.Ico (max p.1.val u) (p.1.val + p.2.val) ∪ Intervals.den (nat m) := by
  rw [nat_cons, den_cons, Finset.filter_union, Finset.Ico_filter_le,
    Finset.filter_true_of_mem fun y hy => le_trans hu (h.lt_of_mem_tail hy).le]

variable {S : Finset ℕ}

/-- The loop of `span_of` takes in the `len` least values of the rest of `other`. -/
theorem spanLoop_spec (hS : S.card < 2 ^ 63) :
    ∀ (rest : List (U64 × U64)) (t : IntervalSet) (len : U64), Canon rest →
      Progress S t.size t.m (firstN (Intervals.den (nat rest)) len.val) →
      ∃ r, spanLoop t len rest = some r ∧ Progress S r.size r.m ∅
  | [], t, len, _, h => ⟨t, rfl, by simpa using h⟩
  | p :: rest, t, len, hc, h => by
    have hpos := hc.head_pos
    have hpb := hc.bounded p List.mem_cons_self
    have hX : ∀ y ∈ Intervals.den (nat rest), p.1.val + p.2.val ≤ y :=
      fun y hy => (hc.lt_of_mem_tail hy).le
    rw [nat_cons, den_cons] at h
    unfold spanLoop
    split_ifs with h0 hlt
    · have : len.val = 0 := by rw [h0]; rfl
      rw [this, firstN_zero] at h
      exact ⟨t, rfl, h⟩
    · rw [Fin.lt_def] at hlt
      rw [firstN_Ico_union_of_lt (by omega) hX (by omega), Nat.add_sub_cancel_left] at h
      obtain ⟨r, ps, pl, hins, hP⟩ := h.insert hS hpos hpb rfl
        fun x hx => hc.lt_of_mem_tail (firstN_subset _ _ hx)
      have hv : (len - p.2).val = len.val - p.2.val := Fin.coe_sub_iff_le.mpr (Fin.le_def.mpr hlt.le)
      obtain ⟨r', hr', hP'⟩ := spanLoop_spec hS rest r (len - p.2) hc.tail (hv ▸ hP)
      exact ⟨r', by rw [hins, Option.bind_some]; exact hr', hP'⟩
    · rw [Fin.lt_def, not_lt] at hlt
      rw [firstN_Ico_union_of_le (by omega) hX (by omega)] at h
      obtain ⟨r, ps, pl, hins, hP⟩ := h.insert hS
        (Nat.pos_of_ne_zero fun h' => h0 (Fin.ext h')) (by omega) (Finset.union_empty _).symm
        fun x hx => absurd hx (Finset.notMem_empty x)
      exact ⟨r, by rw [hins]; rfl, hP⟩

/-- `span_of(other, start, len)` of a well-formed set, with `len > 0` and a range that does
not wrap around, builds the well-formed set of the `len` least values of `other` from
`start` on. -/
theorem spanOf_spec {other : IntervalSet} {start len : U64} (ho : WF other) (hlen : 0 < len.val)
    (hend : start.val + len.val < 2 ^ 64) :
    ∃ r, other.spanOf start len = some r ∧ WF r ∧
      r.den = firstN (other.den.filter fun x => start.val ≤ x) len.val := by
  set S := firstN (other.den.filter fun x => start.val ≤ x) len.val with hSdef
  have hS : S.card < 2 ^ 63 := lt_of_le_of_lt
    (Finset.card_le_card ((firstN_subset _ _).trans (Finset.filter_subset _ _))) ho.card_lt
  have hfind : S = firstN ((Intervals.den (nat (findInc other.m start))).filter
      fun x => start.val ≤ x) len.val := by
    rw [hSdef, den, findInc_filter ho.canon start le_rfl]
  unfold spanOf
  split
  next hnil =>
    refine ⟨empty, rfl, wf_empty, ?_⟩
    rw [den_empty, hfind, hnil, nat_nil, den_nil, Finset.filter_empty, firstN_empty]
  next p rest hm =>
    have hc : Canon (p :: rest) := hm ▸ ho.canon.findInc start
    have hin := findInc_head ho.canon hm
    have hpe := hc.head_end
    have hX : ∀ y ∈ Intervals.den (nat rest), p.1.val + p.2.val ≤ y :=
      fun y hy => (hc.lt_of_mem_tail hy).le
    rw [hm, hc.filter_from hin.le] at hfind
    split_ifs with hps hbefore hcut
    · rw [Fin.lt_def, hpe] at hbefore
      omega
    · rw [Fin.lt_def] at hps
      rw [Fin.lt_def, hpe, val_add_of_lt hend] at hcut
      rw [max_eq_right hps.le, firstN_Ico_union_of_lt hin.le hX (by omega)] at hfind
      have hv : (p.2 - (start - p.1)).val = p.1.val + p.2.val - start.val := by
        have h1 : (start - p.1).val = start.val - p.1.val := Fin.coe_sub_iff_le.mpr (Fin.le_def.mpr hps.le)
        rw [Fin.coe_sub_iff_le.mpr (by rw [Fin.le_def, h1]; omega), h1]
        omega
      obtain ⟨r, ps, pl, hins, hP⟩ := (progress_empty S).insert hS
        (by omega : 0 < (p.2 - (start - p.1)).val)
        (by omega : start.val + (p.2 - (start - p.1)).val < 2 ^ 64)
        (by rw [hv, Nat.add_sub_cancel' hin.le]; exact hfind)
        (fun x hx => by
          have := hc.lt_of_mem_tail (firstN_subset _ _ hx)
          rw [hv]
          omega)
      have hv' : (len - (p.2 - (start - p.1))).val = len.val - (p.1.val + p.2.val - start.val) := by
        rw [Fin.coe_sub_iff_le.mpr (by rw [Fin.le_def, hv]; omega), hv]
      obtain ⟨r', hr', hP'⟩ := spanLoop_spec hS rest r _ hc.tail (hv' ▸ hP)
      refine ⟨r', ?_, hP'.result⟩
      dsimp only
      rw [hins, Option.bind_some]
      exact hr'
    · rw [Fin.lt_def] at hps
      rw [Fin.lt_def, hpe, val_add_of_lt hend, not_lt] at hcut
      rw [max_eq_right hps.le, firstN_Ico_union_of_le hin.le hX (by omega)] at hfind
      obtain ⟨r, ps, pl, hins, hP⟩ := (progress_empty S).insert hS hlen hend
        (hfind.trans (Finset.union_empty _).symm) fun x hx => absurd hx (Finset.notMem_empty x)
      exact ⟨r, by rw [hins]; rfl, hP.result⟩
    · rw [Fin.lt_def, not_lt] at hps
      rw [max_eq_left hps] at hfind
      have hfind' : S = firstN (Intervals.den (nat (p :: rest))) len.val := hfind
      obtain ⟨r, hr, hP⟩ := spanLoop_spec hS (p :: rest) empty len hc (hfind' ▸ progress_empty S)
      exact ⟨r, hr, hP.result⟩

end IntervalSet

end Lunule
