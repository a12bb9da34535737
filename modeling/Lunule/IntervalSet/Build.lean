import Mathlib.Data.ZMod.Defs
import Lunule.IntervalSet.Subset

/-!
Sets built by runs of `interval_set` operations. Each operation that replaces the set
(`insert`, `erase`, `subtract`, `insert(set)`, `intersection_of(b)`, `union_of(b)` and the
builders `subset_of` and `span_of` over it) is an event; its precondition is the one it is
meant to be called under, with the bounds the 64-bit arithmetic needs, and its meaning is
the operation on sets of numbers it stands for. A run from the empty set under these
preconditions never fails, keeps the representation invariant and builds the set the run of
meanings builds; the queries of the result answer by its set.

Without the bounds the representation breaks: an empty `erase` splits an interval into two
that touch, a range that ends at `2 ^ 64` is not found by `contains`, `_size` turns negative
at `2 ^ 63`, and an empty `span_of` from inside an interval fails `insert`'s assertion.
-/

namespace Lunule

namespace IntervalSet

open Intervals Runs

/-- An operation that replaces the set. -/
inductive Op where
  | insert (start len : U64)
  | erase (start len : U64)
  | subtract (a : IntervalSet)
  | insertSet (a : IntervalSet)
  | intersectionOf (b : IntervalSet)
  | unionOf (b : IntervalSet)
  | subsetOf (start en : U64)
  | spanOf (start len : U64)

/-- The operation on the set `s`: `intersection_of(b)` and `union_of(b)` take `s` as their
first set, `subset_of` and `span_of` build from `s`. -/
def Op.exec (s : IntervalSet) : Op → Option IntervalSet
  | .insert start len => (s.insert start len).map Prod.fst
  | .erase start len => s.erase start len none
  | .subtract a => s.subtract a
  | .insertSet a => s.insertSet a
  | .intersectionOf b => IntervalSet.intersectionOf s b
  | .unionOf b => IntervalSet.unionOf s b
  | .subsetOf start en => s.subsetOfRange start en
  | .spanOf start len => s.spanOf start len

/-- The range `[start, start + len)`. -/
def range (start len : U64) : Finset ℕ := Finset.Ico start.val (start.val + len.val)

/-- What each operation is called under: its own assertions and disjointness or containment,
with no range past `2 ^ 64 - 1`, no empty range and fewer than `2 ^ 63` elements in a result. -/
def Op.pre (s : IntervalSet) : Op → Prop
  | .insert start len => 0 < len.val ∧ start.val + len.val < 2 ^ 64 ∧
      Disjoint s.den (range start len) ∧ (s.den ∪ range start len).card < 2 ^ 63
  | .erase start len => 0 < len.val ∧ range start len ⊆ s.den
  | .subtract a => WF a ∧ a.den ⊆ s.den
  | .insertSet a => WF a ∧ Disjoint s.den a.den ∧ (s.den ∪ a.den).card < 2 ^ 63
  | .intersectionOf b => WF b
  | .unionOf b => WF b ∧ (s.den ∪ b.den).card < 2 ^ 63
  | .subsetOf start en => start ≤ en
  | .spanOf start len => 0 < len.val ∧ start.val + len.val < 2 ^ 64

/-- The operation on sets of numbers each operation stands for. -/
def Op.sem (X : Finset ℕ) : Op → Finset ℕ
  | .insert start len => X ∪ range start len
  | .erase start len => X \ range start len
  | .subtract a => X \ a.den
  | .insertSet a => X ∪ a.den
  | .intersectionOf b => X ∩ b.den
  | .unionOf b => X ∪ b.den
  | .subsetOf start en => X ∩ Finset.Ico start.val en.val
  | .spanOf start len => firstN (X.filter fun x => start.val ≤ x) len.val

/-- A run whose every operation is called under its precondition in the state it meets. -/
def ValidRun : IntervalSet → List Op → Prop
  | _, [] => True
  | s, o :: os => o.pre s ∧ ∀ s', o.exec s = some s' → ValidRun s' os

/-- What the queries of a set answer: `contains` of a value and of a range, `intersects`,
`range_start`, `end_after` and `subset_of(big)`, each by the set the map denotes. -/
structure Answers (s : IntervalSet) : Prop where
  contains : ∀ i : U64, (s.contains i).isSome ↔ i.val ∈ s.den
  containsRange : ∀ start len : U64, 0 < len.val → start.val + len.val < 2 ^ 64 →
    (s.containsRange start len = true ↔ range start len ⊆ s.den)
  intersects : ∀ start len : U64, 0 < len.val → start.val + len.val < 2 ^ 64 →
    len.val < 2 ^ 63 → ∃ r, s.intersects start len = some r ∧
      (r = true ↔ ∃ x ∈ s.den, start.val ≤ x ∧ x < start.val + len.val)
  rangeStart : s.den ≠ ∅ → ∃ r, s.rangeStart = some r ∧ r.val ∈ s.den ∧ ∀ x ∈ s.den, r.val ≤ x
  endAfter : ∀ start : U64, start.val ∈ s.den → ∃ e, s.endAfter start = some e ∧
    start.val < e.val ∧ Finset.Ico start.val e.val ⊆ s.den ∧ e.val ∉ s.den
  subsetOf : ∀ big, WF big → s.subsetOf big = some (decide (s.den ⊆ big.den))

variable {s : IntervalSet}

/-- The queries of a well-formed set answer by its set. -/
theorem WF.answers (hs : WF s) : Answers s where
  contains := contains_isSome hs
  containsRange := containsRange_iff hs
  intersects _ _ hlen hend hlen' := intersects_spec hs hlen hend hlen'
  rangeStart hne := rangeStart_spec hs fun hm => hne (hs.den_eq_empty.mpr hm)
  endAfter _ hin := endAfter_spec hs hin
  subsetOf _ hbig := subsetOf_spec hs hbig

/-- The size of a disjoint union, by the totals of a well-formed set and the other part. -/
theorem total_add_lt (hs : WF s) {X : Finset ℕ} (hdisj : Disjoint s.den X)
    (hcard : (s.den ∪ X).card < 2 ^ 63) : total (nat s.m) + X.card < 2 ^ 63 := by
  rw [Finset.card_union_of_disjoint hdisj] at hcard
  have := hs.size_eq_card
  have := hs.size_eq
  omega

/-- One operation under its precondition succeeds, keeps the invariant and does to the set
what its meaning says. -/
theorem Op.exec_spec (hs : WF s) : ∀ o : Op, o.pre s →
    ∃ s', o.exec s = some s' ∧ WF s' ∧ s'.den = o.sem s.den
  | .insert start len, ⟨hlen, hend, hdisj, hcard⟩ => by
    have htot := total_add_lt hs hdisj hcard
    rw [range, Nat.card_Ico, Nat.add_sub_cancel_left] at htot
    obtain ⟨s', ps, pl, hins, hwf, hden, -⟩ := insert_spec hs hlen hend hdisj htot
    exact ⟨s', by rw [Op.exec, hins]; rfl, hwf, hden⟩
  | .erase start len, ⟨hlen, hsub⟩ => erase_spec hs hlen hsub
  | .subtract a, ⟨ha, hsub⟩ => subtract_spec hs ha hsub
  | .insertSet a, ⟨ha, hdisj, hcard⟩ => by
    have htot := total_add_lt hs hdisj hcard
    have hta : a.den.card = total (nat a.m) := card_den ha.coalesced.2
    rw [hta] at htot
    exact insertSet_spec hs ha hdisj htot
  | .intersectionOf b, hb => intersectionOf_spec hs hb
  | .unionOf b, ⟨hb, hcard⟩ => unionOf_spec hs hb hcard
  | .subsetOf start en, hse => subsetOfRange_spec hs hse
  | .spanOf start len, ⟨hlen, hend⟩ => spanOf_spec hs hlen hend

/-- The preconditions read the set only through the values it holds. -/
theorem Op.pre_congr {t : IntervalSet} (h : s.den = t.den) (o : Op) : o.pre s ↔ o.pre t := by
  cases o <;> simp only [Op.pre, h]

/-- An operation that succeeds under its precondition did what its meaning says. -/
theorem Op.exec_eq_some (hs : WF s) {o : Op} (hpre : o.pre s) {s' : IntervalSet}
    (h : o.exec s = some s') : WF s' ∧ s'.den = o.sem s.den := by
  obtain ⟨t, ht, hwf, hden⟩ := o.exec_spec hs hpre
  rw [h, Option.some.injEq] at ht
  subst ht
  exact ⟨hwf, hden⟩

/-- A valid run stays valid with one more operation whose precondition holds of the set the
run builds. -/
theorem validRun_append (o : Op) : ∀ (os : List Op) (s t : IntervalSet), WF s →
    ValidRun s os → t.den = os.foldl Op.sem s.den → o.pre t → ValidRun s (os ++ [o])
  | [], s, _, _, _, hden, hpre => ⟨(Op.pre_congr hden.symm o).mpr hpre, fun _ _ => trivial⟩
  | o' :: os, s, t, hs, ⟨hpre', hnext⟩, hden, hpre => ⟨hpre', fun s' hexec => by
      obtain ⟨hwf, hden'⟩ := Op.exec_eq_some hs hpre' hexec
      exact validRun_append o os s' t hwf (hnext s' hexec) (by rw [hden']; exact hden) hpre⟩

/-- A run under the preconditions from a well-formed set never fails, keeps the invariant and
builds the set the run of meanings builds. -/
theorem run_spec : ∀ (os : List Op) (s : IntervalSet), WF s → ValidRun s os →
    ∃ s', run Op.exec s os = some s' ∧ WF s' ∧ s'.den = os.foldl Op.sem s.den := by
  intro os s hs hv
  obtain ⟨s', hrun, hwf, -, hden⟩ := run_progress Op.exec
    (fun t es => WF t ∧ ValidRun t es ∧ es.foldl Op.sem t.den = os.foldl Op.sem s.den)
    (fun t o es ⟨ht, ⟨hpre, hnext⟩, hfold⟩ => by
      obtain ⟨t', hexec, hwf', hden'⟩ := o.exec_spec ht hpre
      refine ⟨t', hexec, hwf', hnext t' hexec, ?_⟩
      rw [hden', ← hfold, List.foldl_cons])
    os s ⟨hs, hv, rfl⟩
  exact ⟨s', hrun, hwf, hden⟩

/-- `interval_set` under the amended preconditions: every run from the empty set succeeds
and builds a well-formed set, coalesced with `_size` the sum of its lengths, whose set is the
one the run of set operations builds, and whose queries answer by it. -/
theorem interval_set_runs_sound (os : List Op) (hv : ValidRun empty os) :
    ∃ s, run Op.exec empty os = some s ∧ WF s ∧ s.den = os.foldl Op.sem ∅ ∧ Answers s := by
  obtain ⟨s, hrun, hwf, hden⟩ := run_spec os empty wf_empty hv
  exact ⟨s, hrun, hwf, hden, hwf.answers⟩

/-- Two inserts and an erase of a range inside the first interval. -/
def sampleRun : List Op := [.insert 5 10, .insert 20 5, .erase 8 2]

theorem validRun_sampleRun : ValidRun empty sampleRun := by
  refine ⟨⟨by decide, by decide, by decide, by decide⟩, fun s₁ h₁ => ?_⟩
  have e₁ : s₁ = ⟨10, [(5, 10)]⟩ := Option.some_injective _ (h₁.symm.trans (by decide))
  subst e₁
  refine ⟨⟨by decide, by decide, by decide, by decide⟩, fun s₂ h₂ => ?_⟩
  have e₂ : s₂ = ⟨15, [(5, 10), (20, 5)]⟩ := Option.some_injective _ (h₂.symm.trans (by decide))
  subst e₂
  exact ⟨⟨by decide, by decide⟩, fun _ _ => trivial⟩

theorem sampleRun_sound : ValidRun empty sampleRun ∧
    ∃ s, run Op.exec empty sampleRun = some s ∧ WF s ∧ s.den = sampleRun.foldl Op.sem ∅ ∧
      Answers s :=
  ⟨validRun_sampleRun, interval_set_runs_sound sampleRun validRun_sampleRun⟩

/-- Runs within the preconditions as the operations' own assertions state them, where the
representation breaks: an empty `erase` leaves two intervals that touch, an interval that
ends at `2 ^ 64` is not found by `contains`, `_size` of `2 ^ 63` values reads as `-2 ^ 63`,
and an empty `span_of` from inside an interval fails `insert`'s assertion. -/
theorem boundary_runs_break_representation :
    (∃ s, run Op.exec empty [.insert 5 10, .insert 20 5, .erase 8 0] = some s ∧
      s.m = [(5, 3), (8, 7), (20, 5)] ∧ ¬ Coalesced (nat s.m)) ∧
    (∃ s, run Op.exec empty [.insert (2 ^ 64 - 1) 1] = some s ∧
      2 ^ 64 - 1 ∈ s.den ∧ s.contains (2 ^ 64 - 1) = none) ∧
    (∃ s, run Op.exec empty [.insert 0 (2 ^ 63)] = some s ∧
      s.size = -2 ^ 63 ∧ total (nat s.m) = 2 ^ 63) ∧
    run Op.exec empty [.insert 5 10, .spanOf 8 0] = none := by
  refine ⟨⟨⟨15, [(5, 3), (8, 7), (20, 5)]⟩, by decide, rfl, ?_⟩,
    ⟨⟨1, [(2 ^ 64 - 1, 1)]⟩, by decide, by decide, by decide⟩,
    ⟨⟨-2 ^ 63, [(0, 2 ^ 63)]⟩, by decide, rfl, rfl⟩, by decide⟩
  rintro ⟨-, hgap⟩
  exact absurd (List.rel_of_pairwise_cons hgap (List.mem_cons_self)) (by decide)

end IntervalSet

end Lunule
