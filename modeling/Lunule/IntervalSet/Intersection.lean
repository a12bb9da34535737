import Lunule.IntervalSet.Basic

/-!
`intersection_of`, `union_of`, `union_insert` and `intersects` of `include/interval_set.h`.

`intersection_of(a, b)` walks the two maps side by side, unless the larger set is at
least ten times the size of the smaller, when `intersection_size_asym` walks the smaller
one and looks the larger one up with `find_inc` from an offset that only grows. Both walks
copy a run of intervals the two maps share in one inner loop. The `assert(offset >
prev_offset)` of the asymmetric walk is what makes it terminate, and the model uses it so.

Both walks are proved against one description of their progress (`Progress`): the
intervals emitted so far are a well-formed set, they and what is still to be found make up
`a ∩ b`, and everything still to be found lies beyond them.
-/

namespace Lunule

namespace IntervalSet

open OrdMap Intervals

/-! ### The model -/

/-- The `do { ... } while` loop of both walks: emit the interval `p` the two walks are
at, step both past it, and go on while they are at equal intervals again. `pa` and `pb`
are the walks after `p`. -/
def copyRun (size : ℤ) (acc : List (U64 × U64)) (p : U64 × U64) :
    List (U64 × U64) → List (U64 × U64) →
      ℤ × List (U64 × U64) × List (U64 × U64) × List (U64 × U64)
  | p' :: pa, q' :: pb =>
    if p' = q' then copyRun (toInt64 (size + p.2.val)) (OrdMap.insert acc p.1 p.2) p' pa pb
    else (toInt64 (size + p.2.val), OrdMap.insert acc p.1 p.2, p' :: pa, q' :: pb)
  | pa, pb => (toInt64 (size + p.2.val), OrdMap.insert acc p.1 p.2, pa, pb)

theorem copyRun_length (size : ℤ) (acc : List (U64 × U64)) (p : U64 × U64) :
    ∀ pa pb : List (U64 × U64), (copyRun size acc p pa pb).2.2.1.length ≤ pa.length ∧
      (copyRun size acc p pa pb).2.2.2.length ≤ pb.length
  | p' :: pa, q' :: pb => by
    unfold copyRun
    split_ifs
    · have := copyRun_length (toInt64 (size + p.2.val)) (OrdMap.insert acc p.1 p.2) p' pa pb
      simp only [List.length_cons]
      omega
    · exact ⟨le_rfl, le_rfl⟩
  | [], _ => by simp [copyRun]
  | _ :: _, [] => by simp [copyRun]

/-- The `while` loop of `intersection_of(a, b)`: `pa` and `pb` walk `a.m` and `b.m`. -/
def intersectWalk (size : ℤ) (acc : List (U64 × U64)) :
    List (U64 × U64) → List (U64 × U64) → Option (ℤ × List (U64 × U64))
  | p :: pa, q :: pb =>
    -- passing?
    if p.1 + p.2 ≤ q.1 then intersectWalk size acc pa (q :: pb)
    else if q.1 + q.2 ≤ p.1 then intersectWalk size acc (p :: pa) pb
    else if p = q then
      let r := copyRun size acc p pa pb
      intersectWalk r.1 r.2.1 r.2.2.1 r.2.2.2
    else
      let start := max p.1 q.1
      let en := min (p.1 + p.2) (q.1 + q.2)
      if en ≤ start then none
      else
        let size := toInt64 (size + (en - start).val)
        let acc := OrdMap.insert acc start (en - start)
        if q.1 + q.2 < p.1 + p.2 then intersectWalk size acc (p :: pa) pb
        else intersectWalk size acc pa (q :: pb)
  | _, _ => some (size, acc)
termination_by pa pb => pa.length + pb.length
decreasing_by
  all_goals simp only [List.length_cons]
  all_goals first
    | omega
    | have := copyRun_length size acc p pa pb
      omega

/-- The measure the `assert(offset > prev_offset)` of `intersection_size_asym` decreases. -/
def asymMeasure (prev : Option U64) : ℕ := prev.elim (2 ^ 64 + 1) fun q => 2 ^ 64 - q.val

theorem asymMeasure_lt {offset : U64} {prev : Option U64}
    (h : ¬ (prev.any fun q => decide (offset ≤ q)) = true) :
    asymMeasure (some offset) < asymMeasure prev := by
  cases prev with
  | none =>
    show 2 ^ 64 - offset.val < 2 ^ 64 + 1
    omega
  | some q =>
    simp only [Option.any_some, decide_eq_true_eq, not_le] at h
    show 2 ^ 64 - offset.val < 2 ^ 64 - q.val
    have := offset.isLt
    rw [Fin.lt_def] at h
    omega

set_option linter.unusedVariables false in
/-- The `while (1)` loop of `intersection_size_asym(s, l)`: `ps` walks `s.m`, `l` is
`l.m`, `offset` is where `l` is looked up from, and `prev` the offset of the pass before
(none on the first pass). -/
def asymLoop (l : List (U64 × U64)) (size : ℤ) (acc ps : List (U64 × U64)) (offset : U64)
    (prev : Option U64) : Option (ℤ × List (U64 × U64)) :=
  -- `assert(offset > prev_offset)`, on every pass but the first
  if h : prev.any fun q => decide (offset ≤ q) then none
  else
    match findInc l offset with
    | [] => some (size, acc)
    | pl :: plrest =>
      match ps.dropWhile fun e => decide (e.1 + e.2 ≤ pl.1) with
      | [] => some (size, acc)
      | p :: psrest =>
        if pl.1 + pl.2 ≤ p.1 then asymLoop l size acc (p :: psrest) p.1 (some offset)
        else if p = pl then
          let r := copyRun size acc p psrest plrest
          match r.2.2.1 with
          | [] => some (r.1, r.2.1)
          | p' :: psrest' => asymLoop l r.1 r.2.1 (p' :: psrest') p'.1 (some offset)
        else
          let start := max p.1 pl.1
          let en := min (p.1 + p.2) (pl.1 + pl.2)
          if en ≤ start then none
          else
            let size := toInt64 (size + (en - start).val)
            let acc := OrdMap.insert acc start (en - start)
            if p.1 + p.2 ≤ pl.1 + pl.2 then
              match psrest with
              | [] => some (size, acc)
              | p' :: psrest' => asymLoop l size acc (p' :: psrest') p'.1 (some offset)
            else asymLoop l size acc (p :: psrest) (pl.1 + pl.2) (some offset)
termination_by asymMeasure prev
decreasing_by all_goals exact asymMeasure_lt h

/-- `intersection_size_asym(s, l)`, into the set `this`. -/
def intersectionSizeAsym (s l this : IntervalSet) : Option IntervalSet :=
  match s.m with
  | [] => none
  | p :: _ => (asymLoop l.m this.size this.m s.m p.1 none).map fun r => ⟨r.1, r.2⟩

/-- `intersection_of(a, b)`. -/
def intersectionOf (a b : IntervalSet) : Option IntervalSet :=
  -- after `clear()`, `s` is the smaller set and `l` the larger
  let s := if a.size < b.size then a else b
  let l := if a.size < b.size then b else a
  if s.size = 0 then some empty
  else if 10 ≤ l.size.tdiv s.size then intersectionSizeAsym s l empty
  else (intersectWalk 0 [] a.m b.m).map fun r => ⟨r.1, r.2⟩

/-- `union_of(a, b)`: `a`, less `a ∩ b`, with `b` inserted. -/
def unionOf (a b : IntervalSet) : Option IntervalSet :=
  (intersectionOf a b).bind fun ab => (a.subtract ab).bind fun s => s.insertSet b

/-- `union_insert(off, len)`. -/
def unionInsert (s : IntervalSet) (off len : U64) : Option IntervalSet :=
  (empty.insert off len).bind fun r => unionOf s r.1

/-- `intersects(start, len)`. -/
def intersects (s : IntervalSet) (start len : U64) : Option Bool :=
  (empty.insert start len).bind fun r => (intersectionOf s r.1).map fun i => !i.m.isEmpty

/-! ### Walks over coalesced maps -/

variable {m m' pa pb : List (U64 × U64)} {p q : U64 × U64} {T R R' : Finset ℕ}
  {size : ℤ} {acc : List (U64 × U64)}

/-- A map a walk can run over: coalesced, and no interval runs past `2 ^ 64`. -/
structure Canon (m : List (U64 × U64)) : Prop where
  coalesced : Coalesced (nat m)
  bounded : ∀ p ∈ m, p.1.val + p.2.val < 2 ^ 64

theorem WF.canon {s : IntervalSet} (h : WF s) : Canon s.m := ⟨h.coalesced, h.bounded⟩

theorem Canon.sublist (h : Canon m) (hs : m'.Sublist m) : Canon m' :=
  ⟨h.coalesced.sublist (hs.map _), fun p hp => h.bounded p (hs.subset hp)⟩

theorem Canon.tail (h : Canon (p :: m)) : Canon m := h.sublist (List.sublist_cons_self _ _)

theorem Canon.head_pos (h : Canon (p :: m)) : 0 < p.2.val := pos_of_mem h.coalesced List.mem_cons_self

theorem Canon.head_end (h : Canon (p :: m)) : (p.1 + p.2).val = p.1.val + p.2.val :=
  add_val h.bounded List.mem_cons_self

/-- Everything after the first interval of a walk lies beyond its end. -/
theorem Canon.lt_of_mem_tail (h : Canon (p :: m)) {x : ℕ} (hx : x ∈ Intervals.den (nat m)) :
    p.1.val + p.2.val < x :=
  lt_of_mem_den_tail h.coalesced hx

theorem Canon.le_of_mem (h : Canon (p :: m)) {x : ℕ} (hx : x ∈ Intervals.den (nat (p :: m))) :
    p.1.val ≤ x :=
  le_of_mem_den_cons h.coalesced hx

/-! What two walks still share, at the step each branch of the walks takes. -/

theorem den_inter_of_le (h : Canon (q :: pb)) (hpq : p.1.val + p.2.val ≤ q.1.val) :
    Intervals.den (nat (p :: pa)) ∩ Intervals.den (nat (q :: pb)) =
      Intervals.den (nat pa) ∩ Intervals.den (nat (q :: pb)) :=
  den_cons_inter_of_le h.coalesced hpq

theorem den_inter_of_ge (h : Canon (p :: pa)) (hqp : q.1.val + q.2.val ≤ p.1.val) :
    Intervals.den (nat (p :: pa)) ∩ Intervals.den (nat (q :: pb)) =
      Intervals.den (nat (p :: pa)) ∩ Intervals.den (nat pb) := by
  rw [Finset.inter_comm, den_inter_of_le h hqp, Finset.inter_comm]

theorem den_inter_self (h : Canon (p :: pa)) (h' : Canon (p :: pb)) :
    Intervals.den (nat (p :: pa)) ∩ Intervals.den (nat (p :: pb)) =
      Finset.Ico p.1.val (p.1.val + p.2.val) ∪ Intervals.den (nat pa) ∩ Intervals.den (nat pb) :=
  den_cons_inter_cons_self h.coalesced h'.coalesced

theorem den_inter_of_end_le (h : Canon (p :: pa)) (h' : Canon (q :: pb))
    (hpq : p.1.val + p.2.val ≤ q.1.val + q.2.val) :
    Intervals.den (nat (p :: pa)) ∩ Intervals.den (nat (q :: pb)) =
      Finset.Ico (max p.1.val q.1.val) (p.1.val + p.2.val) ∪
        Intervals.den (nat pa) ∩ Intervals.den (nat (q :: pb)) :=
  den_cons_inter_of_end_le h.coalesced h'.coalesced hpq

theorem den_inter_of_end_ge (h : Canon (p :: pa)) (h' : Canon (q :: pb))
    (hqp : q.1.val + q.2.val ≤ p.1.val + p.2.val) :
    Intervals.den (nat (p :: pa)) ∩ Intervals.den (nat (q :: pb)) =
      Finset.Ico (max p.1.val q.1.val) (q.1.val + q.2.val) ∪
        Intervals.den (nat (p :: pa)) ∩ Intervals.den (nat pb) :=
  den_cons_inter_of_end_ge h.coalesced h'.coalesced hqp

/-- The overlap `[max, min)` both walks emit, in 64-bit arithmetic: when the `assert(en >
start)` holds, it is the overlap of the two intervals as numbers. -/
theorem overlap_vals (hp : p.1.val + p.2.val < 2 ^ 64) (hq : q.1.val + q.2.val < 2 ^ 64)
    (h : ¬ min (p.1 + p.2) (q.1 + q.2) ≤ max p.1 q.1) :
    (max p.1 q.1).val = max p.1.val q.1.val ∧
      (max p.1 q.1).val + (min (p.1 + p.2) (q.1 + q.2) - max p.1 q.1).val =
        min (p.1.val + p.2.val) (q.1.val + q.2.val) ∧
      0 < (min (p.1 + p.2) (q.1 + q.2) - max p.1 q.1).val := by
  have hpe : (p.1 + p.2).val = p.1.val + p.2.val := val_add_of_lt hp
  have hqe : (q.1 + q.2).val = q.1.val + q.2.val := val_add_of_lt hq
  rw [Fin.le_def, Fin.coe_min, Fin.coe_max, hpe, hqe] at h
  have hle : max p.1 q.1 ≤ min (p.1 + p.2) (q.1 + q.2) := by
    rw [Fin.le_def, Fin.coe_min, Fin.coe_max, hpe, hqe]
    omega
  rw [Fin.coe_sub_iff_le.mpr hle, Fin.coe_min, Fin.coe_max, hpe, hqe]
  omega

/-- Two nonempty intervals that pass neither way overlap: the `assert(en > start)` of both
walks holds. -/
theorem overlap_ne (hp : p.1.val + p.2.val < 2 ^ 64) (hq : q.1.val + q.2.val < 2 ^ 64)
    (hp0 : 0 < p.2.val) (hq0 : 0 < q.2.val) (h1 : ¬ p.1 + p.2 ≤ q.1) (h2 : ¬ q.1 + q.2 ≤ p.1) :
    ¬ min (p.1 + p.2) (q.1 + q.2) ≤ max p.1 q.1 := by
  rw [Fin.le_def, val_add_of_lt hp] at h1
  rw [Fin.le_def, val_add_of_lt hq] at h2
  simp only [min_le_iff, le_max_iff, Fin.le_def, val_add_of_lt hp, val_add_of_lt hq]
  omega

/-- Where a walk towards the set `T` is: it has emitted the well-formed set
`⟨size, acc⟩`, which together with the part `R` still to be found makes up `T`, and `R`
lies beyond every interval emitted. -/
structure Progress (T : Finset ℕ) (size : ℤ) (acc : List (U64 × U64)) (R : Finset ℕ) :
    Prop where
  wf : WF ⟨size, acc⟩
  den_eq : Intervals.den (nat acc) ∪ R = T
  before : ∀ e ∈ acc, ∀ x ∈ R, e.1.val + e.2.val < x

theorem progress_start (T : Finset ℕ) : Progress T 0 [] T :=
  ⟨wf_empty, by simp, fun _ h => absurd h List.not_mem_nil⟩

/-- A walk that has nothing left to find has emitted `T`. -/
theorem Progress.done (h : Progress T size acc ∅) :
    WF ⟨size, acc⟩ ∧ den ⟨size, acc⟩ = T := by
  refine ⟨h.wf, ?_⟩
  rw [← h.den_eq, Finset.union_empty]
  rfl

/-- Emitting the first interval `[start, start + len)` of what is still to be found. -/
theorem Progress.push (h : Progress T size acc R) (hT : T.card < 2 ^ 63) {start len : U64}
    (hlen : 0 < len.val) (hend : start.val + len.val < 2 ^ 64)
    (hR : R = Finset.Ico start.val (start.val + len.val) ∪ R')
    (hR' : ∀ x ∈ R', start.val + len.val < x) :
    Progress T (toInt64 (size + len.val)) (OrdMap.insert acc start len) R' := by
  have hs : start.val ∈ R := hR ▸ Finset.mem_union_left _ (Finset.mem_Ico.mpr ⟨le_rfl, by omega⟩)
  have hlt : ∀ e ∈ acc, e.1.val + e.2.val < start.val := fun e he => h.before e he _ hs
  have hk : ∀ j ∈ keys acc, j < start := by
    intro j hj
    obtain ⟨e, he, rfl⟩ := List.mem_map.mp hj
    have := hlt e he
    rw [Fin.lt_def]
    omega
  rw [insert_eq_append _ hk]
  have hc : Coalesced (nat (acc ++ [(start, len)])) := by
    refine coalesced_nat_append.mpr ⟨h.wf.coalesced, coalesced_nat_cons.mpr
      ⟨hlen, fun _ h => absurd h List.not_mem_nil, coalesced_nil⟩, fun e he q hq => ?_⟩
    rw [List.mem_singleton.mp hq]
    exact hlt e he
  have hden : Intervals.den (nat (acc ++ [(start, len)])) =
      Intervals.den (nat acc) ∪ Finset.Ico start.val (start.val + len.val) := by
    simp
  have hdisj : Disjoint (Intervals.den (nat acc)) (Finset.Ico start.val (start.val + len.val)) := by
    rw [Finset.disjoint_left]
    intro x hx hx'
    obtain ⟨e, he, _, _⟩ := mem_den_nat.mp hx
    have := hlt e he
    rw [Finset.mem_Ico] at hx'
    omega
  have htotal : total (nat (acc ++ [(start, len)])) = total (nat acc) + len.val := by
    have := total_of_den_union h.wf.coalesced hc hden hdisj
    rwa [Nat.add_sub_cancel_left] at this
  have hcard : total (nat (acc ++ [(start, len)])) ≤ T.card := by
    rw [← card_den hc.2]
    refine Finset.card_le_card fun x hx => ?_
    rw [← h.den_eq, hR, ← Finset.union_assoc]
    exact Finset.mem_union_left _ (hden ▸ hx)
  have hsize : size = total (nat acc) := h.wf.size_eq
  refine ⟨⟨hc, fun e he => ?_, ?_, ?_⟩, ?_, fun e he x hx => ?_⟩
  · rcases List.mem_append.mp he with he | he
    · exact h.wf.bounded e he
    · rw [List.mem_singleton.mp he]
      exact hend
  · show toInt64 (size + len.val) = (total (nat (acc ++ [(start, len)])) : ℤ)
    rw [toInt64_eq (by omega) (by omega)]
    omega
  · show total (nat (acc ++ [(start, len)])) < 2 ^ 63
    omega
  · rw [hden, Finset.union_assoc, ← hR, h.den_eq]
  · have := hR' x hx
    rcases List.mem_append.mp he with he | he
    · have := hlt e he
      omega
    · rw [List.mem_singleton.mp he]
      exact this

/-- The copy loop emits the run of intervals the two walks share, one by one. -/
theorem copyRun_spec (hT : T.card < 2 ^ 63) :
    ∀ {pa pb : List (U64 × U64)} {size : ℤ} {acc : List (U64 × U64)} {p : U64 × U64}
      {r : ℤ × List (U64 × U64) × List (U64 × U64) × List (U64 × U64)},
      copyRun size acc p pa pb = r → Canon (p :: pa) → Canon (p :: pb) →
      Progress T size acc (Intervals.den (nat (p :: pa)) ∩ Intervals.den (nat (p :: pb))) →
      Progress T r.1 r.2.1 (Intervals.den (nat r.2.2.1) ∩ Intervals.den (nat r.2.2.2)) ∧
        ∃ C, pa = C ++ r.2.2.1 ∧ pb = C ++ r.2.2.2 := by
  intro pa
  induction pa with
  | nil =>
    intro pb size acc p r hr h h' hP
    subst hr
    exact ⟨hP.push hT h.head_pos (h.bounded p List.mem_cons_self) (den_inter_self h h')
      fun x hx => h.lt_of_mem_tail (Finset.mem_inter.mp hx).1, [], rfl, rfl⟩
  | cons p' pa ih =>
    intro pb size acc p r hr h h' hP
    have hP1 := hP.push hT h.head_pos (h.bounded p List.mem_cons_self) (den_inter_self h h')
      fun x hx => h.lt_of_mem_tail (Finset.mem_inter.mp hx).1
    cases pb with
    | nil =>
      subst hr
      exact ⟨hP1, [], rfl, rfl⟩
    | cons q' pb =>
      unfold copyRun at hr
      split_ifs at hr with hpq
      · subst hpq
        obtain ⟨hP', C, hC, hC'⟩ := ih hr h.tail h'.tail hP1
        exact ⟨hP', p' :: C, by rw [hC]; rfl, by rw [hC']; rfl⟩
      · subst hr
        exact ⟨hP1, [], rfl, rfl⟩

/-- The walk of `intersection_of(a, b)` runs to its end and emits all that is left. -/
theorem intersectWalk_spec (hT : T.card < 2 ^ 63) (size : ℤ) (acc pa pb : List (U64 × U64)) :
    Canon pa → Canon pb →
    Progress T size acc (Intervals.den (nat pa) ∩ Intervals.den (nat pb)) →
    ∃ size' acc', intersectWalk size acc pa pb = some (size', acc') ∧
      Progress T size' acc' ∅ := by
  fun_induction intersectWalk size acc pa pb with
  | case1 size acc p pa q pb hpass ih =>
    intro ha hb hP
    rw [Fin.le_def, ha.head_end] at hpass
    exact ih ha.tail hb (den_inter_of_le hb hpass ▸ hP)
  | case2 size acc p pa q pb _ hpass ih =>
    intro ha hb hP
    rw [Fin.le_def, hb.head_end] at hpass
    exact ih ha hb.tail (den_inter_of_ge ha hpass ▸ hP)
  | case3 size acc pa q pb _ _ r ih =>
    intro ha hb hP
    obtain ⟨hP', C, hC, hC'⟩ := copyRun_spec hT rfl ha hb hP
    exact ih (ha.tail.sublist (hC ▸ List.sublist_append_right C _))
      (hb.tail.sublist (hC' ▸ List.sublist_append_right C _)) hP'
  | case4 size acc p pa q pb h1 h2 _ start en hen =>
    intro ha hb _
    exact absurd hen (overlap_ne (ha.bounded p List.mem_cons_self)
      (hb.bounded q List.mem_cons_self) ha.head_pos hb.head_pos h1 h2)
  | case5 size₀ acc₀ p pa q pb _ _ _ start en hen size acc hlt ih =>
    intro ha hb hP
    obtain ⟨hs, hl, hpos⟩ := overlap_vals (ha.bounded p List.mem_cons_self)
      (hb.bounded q List.mem_cons_self) hen
    rw [Fin.lt_def, ha.head_end, hb.head_end] at hlt
    rw [min_eq_right hlt.le] at hl
    have hs' : start.val = max p.1.val q.1.val := hs
    have hl' : start.val + (en - start).val = q.1.val + q.2.val := hl
    have hqb := hb.bounded q List.mem_cons_self
    refine ih ha hb.tail (hP.push hT hpos (by omega) ?_ fun x hx => ?_)
    · rw [hl', hs', den_inter_of_end_ge ha hb hlt.le]
    · have := hb.lt_of_mem_tail (Finset.mem_inter.mp hx).2
      omega
  | case6 size₀ acc₀ p pa q pb _ _ _ start en hen size acc hge ih =>
    intro ha hb hP
    obtain ⟨hs, hl, hpos⟩ := overlap_vals (ha.bounded p List.mem_cons_self)
      (hb.bounded q List.mem_cons_self) hen
    rw [Fin.lt_def, ha.head_end, hb.head_end, not_lt] at hge
    rw [min_eq_left hge] at hl
    have hs' : start.val = max p.1.val q.1.val := hs
    have hl' : start.val + (en - start).val = p.1.val + p.2.val := hl
    have hpb := ha.bounded p List.mem_cons_self
    refine ih ha.tail hb (hP.push hT hpos (by omega) ?_ fun x hx => ?_)
    · rw [hl', hs', den_inter_of_end_le ha hb hge]
    · have := ha.lt_of_mem_tail (Finset.mem_inter.mp hx).1
      omega
  | case7 size acc pa pb hend =>
    intro _ _ hP
    refine ⟨size, acc, rfl, ?_⟩
    have : Intervals.den (nat pa) ∩ Intervals.den (nat pb) = ∅ := by
      cases pa with
      | nil => simp
      | cons p pa =>
        cases pb with
        | nil => simp
        | cons q pb => exact absurd rfl (hend p pa q pb rfl)
    exact this ▸ hP

/-! ### The walk of `intersection_size_asym` -/

theorem Canon.end_not_mem (h : Canon m) (hp : p ∈ m) :
    p.1.val + p.2.val ∉ Intervals.den (nat m) :=
  h.coalesced.end_not_mem (List.mem_map_of_mem hp)

theorem Canon.findInc (h : Canon m) (t : U64) : Canon (findInc m t) := by
  rw [findInc_eq h.coalesced h.bounded]
  exact h.sublist (List.dropWhile_sublist _)

/-- The interval `find_inc` finds ends after the offset it looks from. -/
theorem findInc_head (h : Canon m) {t : U64} {pl : U64 × U64} {plrest : List (U64 × U64)}
    (hfind : findInc m t = pl :: plrest) : t.val < pl.1.val + pl.2.val := by
  rw [findInc_eq h.coalesced h.bounded] at hfind
  exact end_gt_of_mem_dropWhile h.coalesced (hfind ▸ List.mem_cons_self)

/-- From the offset `t` on, a map holds what the part `find_inc(t)` finds holds. -/
theorem findInc_filter (h : Canon m) (t : U64) {u : ℕ} (hu : t.val ≤ u) :
    (Intervals.den (nat m)).filter (fun x => u ≤ x) =
      (Intervals.den (nat (findInc m t))).filter (fun x => u ≤ x) := by
  obtain ⟨A, hm, hA⟩ := findInc_split h.coalesced h.bounded t
  have hnone : (Intervals.den (nat A)).filter (fun x => u ≤ x) = ∅ := by
    refine Finset.filter_false_of_mem fun x hx => ?_
    obtain ⟨e, he, _, _⟩ := mem_den_nat.mp hx
    have := hA e he
    omega
  conv_lhs => rw [hm, nat_append, den_append, Finset.filter_union, hnone, Finset.empty_union]

theorem findInc_above (h : Canon m) (t : U64) {u : ℕ} (hu : t.val ≤ u) (X : Finset ℕ) :
    (X ∩ Intervals.den (nat m)).filter (fun x => u ≤ x) =
      (X ∩ Intervals.den (nat (findInc m t))).filter (fun x => u ≤ x) := by
  rw [← Finset.inter_filter, ← Finset.inter_filter, findInc_filter h t hu]

/-- A walk that starts at or after `u` is all beyond `u`. -/
theorem Canon.filter_eq (h : Canon (p :: m)) {u : ℕ} (hu : u ≤ p.1.val) (X : Finset ℕ) :
    (Intervals.den (nat (p :: m)) ∩ X).filter (fun x => u ≤ x) =
      Intervals.den (nat (p :: m)) ∩ X :=
  Finset.filter_true_of_mem fun _ hx => le_trans hu (h.le_of_mem (Finset.mem_inter.mp hx).1)

/-- Past the end of its first interval, a walk holds what its tail holds. -/
theorem Canon.filter_end (h : Canon (p :: m)) (X : Finset ℕ) :
    (X ∩ Intervals.den (nat (p :: m))).filter (fun x => p.1.val + p.2.val ≤ x) =
      X ∩ Intervals.den (nat m) := by
  ext x
  simp only [Finset.mem_filter, Finset.mem_inter, nat_cons, den_cons, Finset.mem_union,
    Finset.mem_Ico]
  constructor
  · rintro ⟨⟨hX, hx | hx⟩, hle⟩
    · omega
    · exact ⟨hX, hx⟩
  · rintro ⟨hX, hx⟩
    exact ⟨⟨hX, Or.inr hx⟩, (h.lt_of_mem_tail hx).le⟩

/-- Where the walk of `intersection_size_asym` is at the top of its loop: what it still has
to find is what `ps` and `l` share from `offset` on. -/
structure AsymInv (T : Finset ℕ) (l : List (U64 × U64)) (size : ℤ) (acc ps : List (U64 × U64))
    (offset : U64) (prev : Option U64) : Prop where
  progress : Progress T size acc
    ((Intervals.den (nat ps) ∩ Intervals.den (nat l)).filter fun x => offset.val ≤ x)
  walk : Canon ps
  -- the offset is not inside both the interval `ps` is at and `l`
  aligned : ∀ q ∈ ps.head?, offset.val ≤ q.1.val ∨ offset.val ∉ Intervals.den (nat l)
  prev_lt : ∀ q ∈ prev, q < offset

section Asym

variable {l ps psrest plrest : List (U64 × U64)} {pl : U64 × U64} {offset : U64}
  {prev : Option U64}

/-- One pass of the loop, up to its branches: `find_inc(offset)` finds `pl`, `ps` is
stepped to `p`, the first interval of `s` that ends after `pl` starts, and what is left
to find is what the walks from `p` and from `pl` share. -/
theorem AsymInv.lookup (hI : AsymInv T l size acc ps offset prev) (hl : Canon l)
    (hfind : findInc l offset = pl :: plrest)
    (hdrop : ps.dropWhile (fun e => decide (e.1 + e.2 ≤ pl.1)) = p :: psrest) :
    Canon (pl :: plrest) ∧ Canon (p :: psrest) ∧ offset.val < pl.1.val + pl.2.val ∧
      ¬ p.1 + p.2 ≤ pl.1 ∧ (offset.val ≤ p.1.val ∨ offset.val < pl.1.val) ∧
      Progress T size acc (Intervals.den (nat (p :: psrest)) ∩ Intervals.den (nat (pl :: plrest))) := by
  have hL : Canon (pl :: plrest) := hfind ▸ hl.findInc offset
  have hP : Canon (p :: psrest) := hdrop ▸ hI.walk.sublist (List.dropWhile_sublist _)
  have hoff := findInc_head hl hfind
  have hpl : ¬ p.1 + p.2 ≤ pl.1 := by
    have := List.head_dropWhile_not (fun e : U64 × U64 => decide (e.1 + e.2 ≤ pl.1))
      (l := ps) (by rw [hdrop]; exact List.cons_ne_nil _ _)
    simp only [hdrop, List.head_cons, decide_eq_false_iff_not] at this
    exact this
  have hplv : pl.1.val < p.1.val + p.2.val := by
    rw [Fin.le_def, hP.head_end] at hpl
    omega
  have hmax : offset.val ≤ p.1.val ∨ offset.val < pl.1.val := by
    cases hps : ps with
    | nil => rw [hps] at hdrop; cases hdrop
    | cons q qs =>
      rcases hI.aligned q (by rw [hps]; rfl) with h | h
      · left
        have hpq : p ∈ q :: qs := hps ▸ (List.dropWhile_sublist _).subset (hdrop ▸ List.mem_cons_self)
        have := (hps ▸ hI.walk).le_of_mem (mem_den_nat.mpr ⟨p, hpq, le_rfl, by
          have := hP.head_pos
          omega⟩)
        omega
      · right
        by_contra hge
        have hpl : pl ∈ l := by
          rw [findInc_eq hl.coalesced hl.bounded] at hfind
          exact (List.dropWhile_sublist _).subset (hfind ▸ List.mem_cons_self)
        exact h (mem_den_nat.mpr ⟨pl, hpl, by omega, hoff⟩)
  refine ⟨hL, hP, hoff, hpl, hmax, ?_⟩
  have hR : (Intervals.den (nat ps) ∩ Intervals.den (nat l)).filter (fun x => offset.val ≤ x) =
      Intervals.den (nat (p :: psrest)) ∩ Intervals.den (nat (pl :: plrest)) := by
    rw [findInc_above hl offset le_rfl, hfind]
    ext x
    simp only [Finset.mem_filter, Finset.mem_inter]
    constructor
    · rintro ⟨⟨hx, hxl⟩, -⟩
      refine ⟨?_, hxl⟩
      rw [← List.takeWhile_append_dropWhile (p := fun e : U64 × U64 => decide (e.1 + e.2 ≤ pl.1))
        (l := ps), nat_append, den_append, hdrop, Finset.mem_union] at hx
      rcases hx with hx | hx
      · obtain ⟨e, he, _, _⟩ := mem_den_nat.mp hx
        have hle := of_mem_takeWhile (fun e : U64 × U64 => e.1 + e.2 ≤ pl.1) he
        have he' : e ∈ ps := (List.takeWhile_sublist _).subset he
        rw [Fin.le_def, add_val hI.walk.bounded he'] at hle
        have := hL.le_of_mem hxl
        omega
      · exact hx
    · rintro ⟨hx, hxl⟩
      have h1 := hP.le_of_mem hx
      have h2 := hL.le_of_mem hxl
      refine ⟨⟨?_, hxl⟩, by omega⟩
      rw [← List.takeWhile_append_dropWhile (p := fun e : U64 × U64 => decide (e.1 + e.2 ≤ pl.1))
        (l := ps), nat_append, den_append, hdrop]
      exact Finset.mem_union_right _ hx
  exact hR ▸ hI.progress

/-- The loop goes on from the start of the interval `p'` of `s`. -/
theorem AsymInv.next (hl : Canon l) (hfind : findInc l offset = pl :: plrest)
    (hP : Progress T size acc (Intervals.den (nat (p :: psrest)) ∩ Intervals.den (nat (pl :: plrest))))
    (hc : Canon (p :: psrest)) (hlt : offset.val < p.1.val) :
    AsymInv T l size acc (p :: psrest) p.1 (some offset) := by
  refine ⟨?_, hc, fun q hq => Or.inl ?_, fun q hq => ?_⟩
  · rw [findInc_above hl offset hlt.le, hfind, hc.filter_eq le_rfl]
    exact hP
  · rw [Option.mem_def, List.head?_cons, Option.some_inj] at hq
    rw [hq]
  · rw [Option.mem_def, Option.some_inj] at hq
    rw [← hq, Fin.lt_def]
    exact hlt

/-- The walk of `intersection_size_asym` passes its `assert`s, runs to its end, and emits
all that is left. -/
theorem asymLoop_spec (hT : T.card < 2 ^ 63) (hl : Canon l) (size : ℤ)
    (acc ps : List (U64 × U64)) (offset : U64) (prev : Option U64) :
    AsymInv T l size acc ps offset prev →
    ∃ size' acc', asymLoop l size acc ps offset prev = some (size', acc') ∧
      Progress T size' acc' ∅ := by
  fun_induction asymLoop l size acc ps offset prev with
  | case1 size acc ps offset prev hprev =>
    intro hI
    cases prev with
    | none => cases hprev
    | some q =>
      simp only [Option.any_some, decide_eq_true_eq] at hprev
      exact absurd (hI.prev_lt q rfl) (not_lt.mpr hprev)
  | case2 size acc ps offset prev _ hfind =>
    intro hI
    have hR : (Intervals.den (nat ps) ∩ Intervals.den (nat l)).filter
        (fun x => offset.val ≤ x) = ∅ := by
      rw [findInc_above hl offset le_rfl, hfind, nat_nil, den_nil, Finset.inter_empty,
        Finset.filter_empty]
    exact ⟨size, acc, rfl, hR ▸ hI.progress⟩
  | case3 size acc ps offset prev _ pl plrest hfind hdrop =>
    intro hI
    refine ⟨size, acc, rfl, ?_⟩
    have hR : (Intervals.den (nat ps) ∩ Intervals.den (nat l)).filter
        (fun x => offset.val ≤ x) = ∅ := by
      rw [findInc_above hl offset le_rfl, hfind, Finset.eq_empty_iff_forall_notMem]
      intro x hx
      simp only [Finset.mem_filter, Finset.mem_inter] at hx
      obtain ⟨⟨hx, hxl⟩, -⟩ := hx
      obtain ⟨e, he, _, _⟩ := mem_den_nat.mp hx
      have hle : e.1 + e.2 ≤ pl.1 := by
        by_contra hlt
        have := List.dropWhile_eq_nil_iff.mp hdrop e he
        simp only [decide_eq_true_eq] at this
        exact hlt this
      rw [Fin.le_def, add_val hI.walk.bounded he] at hle
      have := (hfind ▸ hl.findInc offset).le_of_mem hxl
      omega
    exact hR ▸ hI.progress
  | case4 size acc ps offset prev _ pl plrest hfind p psrest hdrop hpass ih =>
    intro hI
    obtain ⟨hL, hP, hoff, _, _, hprog⟩ := hI.lookup hl hfind hdrop
    rw [Fin.le_def, hL.head_end] at hpass
    exact ih (AsymInv.next hl hfind hprog hP (by omega))
  | case5 size acc ps offset prev _ plrest p psrest r hr hfind hdrop _ =>
    intro hI
    obtain ⟨hL, hP, _, _, hmax, hprog⟩ := hI.lookup hl hfind hdrop
    obtain ⟨hr', -⟩ := copyRun_spec hT rfl hP hL hprog
    have hr2 : (copyRun size acc p psrest plrest).2.2.1 = [] := hr
    rw [hr2, nat_nil, den_nil, Finset.empty_inter] at hr'
    exact ⟨_, _, rfl, hr'⟩
  | case6 size acc ps offset prev _ plrest p psrest r p' psrest' hr hfind hdrop _ ih =>
    intro hI
    obtain ⟨hL, hP, hoff, _, hmax, hprog⟩ := hI.lookup hl hfind hdrop
    obtain ⟨hr', C, hC, hC'⟩ := copyRun_spec hT rfl hP hL hprog
    have hr2 : (copyRun size acc p psrest plrest).2.2.1 = p' :: psrest' := hr
    rw [hr2] at hC hr'
    have hc : Coalesced (nat ((p :: C) ++ p' :: psrest')) := by
      rw [List.cons_append, ← hC]
      exact hP.coalesced
    have hP' : Canon (p' :: psrest') := hP.tail.sublist (hC ▸ List.sublist_append_right C _)
    have hskip : Intervals.den (nat (p' :: psrest')) ∩ Intervals.den (nat (p :: plrest)) =
        Intervals.den (nat (p' :: psrest')) ∩
          Intervals.den (nat (copyRun size acc p psrest plrest).2.2.2) := by
      rw [nat_append] at hc
      have h := @den_inter_append (nat (p :: C)) (nat (p' :: psrest'))
        (nat (copyRun size acc p psrest plrest).2.2.2) hc
      rw [← nat_append, List.cons_append, ← hC'] at h
      exact h
    have hlt : p.1.val + p.2.val < p'.1.val :=
      hP.lt_of_mem_tail (by
        rw [hC, nat_append, den_append]
        exact Finset.mem_union_right _ (start_mem_den hP'.head_pos))
    have := hP.head_pos
    exact ih (AsymInv.next hl hfind (hskip ▸ hr') hP' (by omega))
  | case7 size acc ps offset prev _ pl plrest hfind p psrest hdrop hpass _ start en hen =>
    intro hI
    obtain ⟨hL, hP, _, hpl, _, _⟩ := hI.lookup hl hfind hdrop
    exact absurd hen (overlap_ne (hP.bounded p List.mem_cons_self)
      (hL.bounded pl List.mem_cons_self) hP.head_pos hL.head_pos hpl hpass)
  | case8 size₀ acc₀ ps offset prev _ pl plrest hfind p _ _ start en hen size acc hle hdrop =>
    intro hI
    obtain ⟨hL, hP, _, _, _, hprog⟩ := hI.lookup hl hfind hdrop
    obtain ⟨hs, hl', hpos⟩ := overlap_vals (hP.bounded p List.mem_cons_self)
      (hL.bounded pl List.mem_cons_self) hen
    rw [Fin.le_def, hP.head_end, (hL.head_end)] at hle
    rw [min_eq_left hle] at hl'
    have hs' : start.val = max p.1.val pl.1.val := hs
    have hl'' : start.val + (en - start).val = p.1.val + p.2.val := hl'
    have hpb := hP.bounded p List.mem_cons_self
    refine ⟨size, acc, rfl, ?_⟩
    have hdone : Progress T size acc
        (Intervals.den (nat []) ∩ Intervals.den (nat (pl :: plrest))) :=
      hprog.push hT hpos (by omega) (by rw [hl'', hs', den_inter_of_end_le hP hL hle])
        fun x hx => by
          rw [nat_nil, den_nil, Finset.empty_inter] at hx
          cases hx
    rwa [nat_nil, den_nil, Finset.empty_inter] at hdone
  | case9 size₀ acc₀ ps offset prev _ pl plrest hfind p _ _ start en hen size acc hle p'
      psrest' hdrop ih =>
    intro hI
    obtain ⟨hL, hP, hoff, _, hmax, hprog⟩ := hI.lookup hl hfind hdrop
    obtain ⟨hs, hl', hpos⟩ := overlap_vals (hP.bounded p List.mem_cons_self)
      (hL.bounded pl List.mem_cons_self) hen
    rw [Fin.le_def, hP.head_end, (hL.head_end)] at hle
    rw [min_eq_left hle] at hl'
    have hs' : start.val = max p.1.val pl.1.val := hs
    have hl'' : start.val + (en - start).val = p.1.val + p.2.val := hl'
    have hpb := hP.bounded p List.mem_cons_self
    have hnext : p.1.val + p.2.val < p'.1.val :=
      hP.lt_of_mem_tail (start_mem_den hP.tail.head_pos)
    have hprog' : Progress T size acc
        (Intervals.den (nat (p' :: psrest')) ∩ Intervals.den (nat (pl :: plrest))) :=
      hprog.push hT hpos (by omega) (by rw [hl'', hs', den_inter_of_end_le hP hL hle]) fun x hx => by
        have := hP.lt_of_mem_tail (Finset.mem_inter.mp hx).1
        omega
    have : offset.val < p'.1.val := by
      rcases hmax with h | h <;> omega
    exact ih (AsymInv.next hl hfind hprog' hP.tail this)
  | case10 size₀ acc₀ ps offset prev _ pl plrest hfind p psrest hdrop _ _ start en hen size acc
      hgt ih =>
    intro hI
    obtain ⟨hL, hP, hoff, _, _, hprog⟩ := hI.lookup hl hfind hdrop
    obtain ⟨hs, hl', hpos⟩ := overlap_vals (hP.bounded p List.mem_cons_self)
      (hL.bounded pl List.mem_cons_self) hen
    rw [Fin.le_def, hP.head_end, (hL.head_end), not_le] at hgt
    rw [min_eq_right hgt.le] at hl'
    have hs' : start.val = max p.1.val pl.1.val := hs
    have hl'' : start.val + (en - start).val = pl.1.val + pl.2.val := hl'
    have hlb := hL.bounded pl List.mem_cons_self
    have hprog' : Progress T size acc
        (Intervals.den (nat (p :: psrest)) ∩ Intervals.den (nat plrest)) :=
      hprog.push hT hpos (by omega) (by rw [hl'', hs', den_inter_of_end_ge hP hL hgt.le]) fun x hx => by
        have := hL.lt_of_mem_tail (Finset.mem_inter.mp hx).2
        omega
    have hplm : pl ∈ l := by
      rw [findInc_eq hl.coalesced hl.bounded] at hfind
      exact (List.dropWhile_sublist _).subset (hfind ▸ List.mem_cons_self)
    refine ih ⟨?_, hP, fun _ _ => Or.inr ?_, fun q hq => ?_⟩
    · rw [hL.head_end, findInc_above hl offset hoff.le, hfind, hL.filter_end]
      exact hprog'
    · rw [hL.head_end]
      exact hl.end_not_mem hplm
    · rw [Option.mem_def, Option.some_inj] at hq
      rw [← hq, Fin.lt_def, hL.head_end]
      exact hoff

end Asym

/-! ### `intersection_of`, `union_of`, `union_insert`, `intersects` -/

variable {a b : IntervalSet}

/-- A well-formed set has fewer than `2 ^ 63` elements. -/
theorem WF.card_lt (ha : WF a) : a.den.card < 2 ^ 63 := by
  have := ha.size_eq_card
  have := ha.total_lt
  have := ha.size_eq
  omega

theorem card_inter_lt (ha : WF a) : (a.den ∩ b.den).card < 2 ^ 63 :=
  lt_of_le_of_lt (Finset.card_le_card Finset.inter_subset_left) ha.card_lt

/-- The asymmetric path: `intersection_size_asym(s, l)` of a nonempty `s`. -/
theorem intersectionSizeAsym_spec {s l : IntervalSet} (hs : WF s) (hl : WF l) (hne : s.m ≠ []) :
    ∃ i, intersectionSizeAsym s l empty = some i ∧ WF i ∧ i.den = s.den ∩ l.den := by
  obtain ⟨p, rest, hm⟩ := List.exists_cons_of_ne_nil hne
  have hI : AsymInv (s.den ∩ l.den) l.m 0 [] s.m p.1 none := by
    refine ⟨?_, hs.canon, fun q hq => Or.inl ?_, fun q hq => absurd hq (by simp)⟩
    · have hc : Canon (p :: rest) := hm ▸ hs.canon
      rw [hm, hc.filter_eq le_rfl, ← hm]
      exact progress_start _
    · rw [hm, List.head?_cons, Option.mem_def, Option.some_inj] at hq
      rw [hq]
  obtain ⟨size, acc, hrun, hP⟩ :=
    asymLoop_spec (card_inter_lt hs) hl.canon 0 [] s.m p.1 none hI
  obtain ⟨hwf, hden⟩ := hP.done
  refine ⟨⟨size, acc⟩, ?_, hwf, hden⟩
  unfold intersectionSizeAsym
  rw [hm]
  dsimp only
  rw [← hm]
  exact congrArg (Option.map _) hrun

/-- The symmetric path: the walk of `intersection_of(a, b)` over both maps. -/
theorem intersectWalk_result (ha : WF a) (hb : WF b) :
    ∃ i, (intersectWalk 0 [] a.m b.m).map (fun r => (⟨r.1, r.2⟩ : IntervalSet)) = some i ∧
      WF i ∧ i.den = a.den ∩ b.den := by
  obtain ⟨size, acc, hrun, hP⟩ := intersectWalk_spec (card_inter_lt ha) 0 [] a.m b.m
    ha.canon hb.canon (progress_start _)
  obtain ⟨hwf, hden⟩ := hP.done
  exact ⟨⟨size, acc⟩, by rw [hrun]; rfl, hwf, hden⟩

/-- `intersection_of(a, b)` of two well-formed sets succeeds, whichever path it takes, and
gives the well-formed `a ∩ b`. -/
theorem intersectionOf_spec (ha : WF a) (hb : WF b) :
    ∃ i, intersectionOf a b = some i ∧ WF i ∧ i.den = a.den ∩ b.den := by
  unfold intersectionOf
  dsimp only
  by_cases hab : a.size < b.size
  · simp only [if_pos hab]
    by_cases h0 : a.size = 0
    · rw [if_pos h0]
      have : a.den = ∅ := Finset.card_eq_zero.mp (by have := ha.size_eq_card; omega)
      exact ⟨empty, rfl, wf_empty, by rw [den_empty, this, Finset.empty_inter]⟩
    · rw [if_neg h0]
      split_ifs
      · exact intersectionSizeAsym_spec ha hb fun hm => h0 (by
          rw [ha.size_eq_card, (ha.den_eq_empty).mpr hm, Finset.card_empty]; rfl)
      · exact intersectWalk_result ha hb
  · simp only [if_neg hab]
    by_cases h0 : b.size = 0
    · rw [if_pos h0]
      have : b.den = ∅ := Finset.card_eq_zero.mp (by have := hb.size_eq_card; omega)
      exact ⟨empty, rfl, wf_empty, by rw [den_empty, this, Finset.inter_empty]⟩
    · rw [if_neg h0]
      split_ifs
      · obtain ⟨i, hi, hwf, hden⟩ := intersectionSizeAsym_spec hb ha fun hm => h0 (by
          rw [hb.size_eq_card, (hb.den_eq_empty).mpr hm, Finset.card_empty]; rfl)
        exact ⟨i, hi, hwf, by rw [hden, Finset.inter_comm]⟩
      · exact intersectWalk_result ha hb

/-- The two paths of `intersection_of` build the same set: `intersection_size_asym` from a
nonempty `s` gives the map and `_size` the merge walk gives, in either order of the walk. -/
theorem intersection_paths_agree {s l : IntervalSet} (hs : WF s) (hl : WF l) (hne : s.m ≠ []) :
    ∃ i, intersectionSizeAsym s l empty = some i ∧
      (intersectWalk 0 [] s.m l.m).map (fun r => (⟨r.1, r.2⟩ : IntervalSet)) = some i ∧
      (intersectWalk 0 [] l.m s.m).map (fun r => (⟨r.1, r.2⟩ : IntervalSet)) = some i ∧
      WF i ∧ i.den = s.den ∩ l.den := by
  obtain ⟨i, hasym, hwf, hden⟩ := intersectionSizeAsym_spec hs hl hne
  obtain ⟨j, hsl, hjwf, hjden⟩ := intersectWalk_result hs hl
  obtain ⟨k, hls, hkwf, hkden⟩ := intersectWalk_result hl hs
  have hj : j = i := hjwf.eq_of_den_eq hwf (hjden.trans hden.symm)
  have hk : k = i := hkwf.eq_of_den_eq hwf (by rw [hkden, hden, Finset.inter_comm])
  exact ⟨i, hasym, hj ▸ hsl, hk ▸ hls, hwf, hden⟩

/-- `union_of(a, b)` of two well-formed sets whose union has fewer than `2 ^ 63` elements
succeeds and gives the well-formed `a ∪ b`. -/
theorem unionOf_spec (ha : WF a) (hb : WF b) (htot : (a.den ∪ b.den).card < 2 ^ 63) :
    ∃ u, unionOf a b = some u ∧ WF u ∧ u.den = a.den ∪ b.den := by
  obtain ⟨ab, hab, habwf, habden⟩ := intersectionOf_spec ha hb
  obtain ⟨s, hs, hswf, hsden⟩ := subtract_spec ha habwf (habden ▸ Finset.inter_subset_left)
  rw [habden, Finset.sdiff_inter_self_left] at hsden
  have hdisj : Disjoint s.den b.den := hsden ▸ Finset.sdiff_disjoint
  have hcard : total (nat s.m) + total (nat b.m) < 2 ^ 63 := by
    have h1 := hswf.size_eq_card
    have h2 := hb.size_eq_card
    have h3 := Finset.card_sdiff_add_card a.den b.den
    rw [hswf.size_eq] at h1
    rw [hb.size_eq] at h2
    rw [hsden] at h1
    omega
  obtain ⟨u, hu, huwf, huden⟩ := insertSet_spec hswf hb hdisj hcard
  refine ⟨u, ?_, huwf, by rw [huden, hsden, Finset.sdiff_union_self_eq_union]⟩
  unfold unionOf
  rw [hab, Option.bind_some, hs, Option.bind_some, hu]

/-- `union_insert(off, len)` of a nonempty range that does not wrap around, with fewer than
`2 ^ 63` elements in the result, adds the range. -/
theorem unionInsert_spec {s : IntervalSet} {off len : U64} (hs : WF s) (hlen : 0 < len.val)
    (hend : off.val + len.val < 2 ^ 64)
    (htot : (s.den ∪ Finset.Ico off.val (off.val + len.val)).card < 2 ^ 63) :
    ∃ u, s.unionInsert off len = some u ∧ WF u ∧
      u.den = s.den ∪ Finset.Ico off.val (off.val + len.val) := by
  have hlen' : len.val < 2 ^ 63 := by
    have : (Finset.Ico off.val (off.val + len.val)).card ≤
        (s.den ∪ Finset.Ico off.val (off.val + len.val)).card :=
      Finset.card_le_card Finset.subset_union_right
    rw [Nat.card_Ico] at this
    omega
  obtain ⟨r, ps, pl, hr, hrwf, hrden, -⟩ := insert_spec wf_empty hlen hend
    (by rw [den_empty]; exact Finset.disjoint_empty_left _) (by simpa [empty] using hlen')
  rw [den_empty, Finset.empty_union] at hrden
  obtain ⟨u, hu, huwf, huden⟩ := unionOf_spec hs hrwf (hrden ▸ htot)
  refine ⟨u, ?_, huwf, hrden ▸ huden⟩
  unfold unionInsert
  rw [hr, Option.bind_some, hu]

/-- `intersects(start, len)` of a nonempty range that does not wrap around and has fewer
than `2 ^ 63` elements says whether the set meets the range. -/
theorem intersects_spec {s : IntervalSet} {start len : U64} (hs : WF s) (hlen : 0 < len.val)
    (hend : start.val + len.val < 2 ^ 64) (hlen' : len.val < 2 ^ 63) :
    ∃ r, s.intersects start len = some r ∧
      (r = true ↔ ∃ x ∈ s.den, start.val ≤ x ∧ x < start.val + len.val) := by
  obtain ⟨a, ps, pl, ha, hawf, haden, -⟩ := insert_spec wf_empty hlen hend
    (by rw [den_empty]; exact Finset.disjoint_empty_left _) (by simpa [empty] using hlen')
  rw [den_empty, Finset.empty_union] at haden
  obtain ⟨i, hi, hiwf, hiden⟩ := intersectionOf_spec hs hawf
  refine ⟨!i.m.isEmpty, ?_, ?_⟩
  · unfold intersects
    rw [ha, Option.bind_some, hi]
    rfl
  · rw [haden] at hiden
    rw [Bool.not_eq_true', List.isEmpty_eq_false_iff, ne_eq, ← hiwf.den_eq_empty, hiden,
      ← Finset.not_nonempty_iff_eq_empty, not_not]
    simp only [Finset.Nonempty, Finset.mem_inter, Finset.mem_Ico]

end IntervalSet

end Lunule
