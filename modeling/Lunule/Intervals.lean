import Mathlib.Order.Interval.Finset.Nat
import Mathlib.Algebra.GroupWithZero.Nat
import Mathlib.Data.List.TakeWhile
import Lunule.OrdMap

/-!
Finite sets of natural numbers kept as lists of intervals `(start, length)`. A list
denotes the union of its intervals `[start, start + length)`; it is coalesced when
every length is positive and each interval ends strictly before the next begins, so
the intervals are sorted, pairwise disjoint and never touch. The lemmas say how the
denoted set and the total length follow the list, how a coalesced list splits around
a point, and that a coalesced list is the only one with its set.
-/

namespace Intervals

open OrdMap

/-- The numbers the intervals cover. -/
def den (l : List (ℕ × ℕ)) : Finset ℕ :=
  l.foldr (fun p s => Finset.Ico p.1 (p.1 + p.2) ∪ s) ∅

/-- The sum of the lengths. -/
def total (l : List (ℕ × ℕ)) : ℕ := (l.map Prod.snd).sum

/-- Each interval ends before the next begins, with a gap between them. -/
def Gapped (l : List (ℕ × ℕ)) : Prop := l.Pairwise fun p q => p.1 + p.2 < q.1

def Coalesced (l : List (ℕ × ℕ)) : Prop := (∀ p ∈ l, 0 < p.2) ∧ Gapped l

variable {k l l' : List (ℕ × ℕ)} {p q : ℕ × ℕ} {x : ℕ}

@[simp] theorem den_nil : den [] = ∅ := rfl

@[simp] theorem den_cons : den (p :: l) = Finset.Ico p.1 (p.1 + p.2) ∪ den l := rfl

@[simp] theorem den_append : den (l ++ l') = den l ∪ den l' := by
  induction l with
  | nil => simp
  | cons p l ih => simp [ih, Finset.union_assoc]

theorem mem_den : x ∈ den l ↔ ∃ p ∈ l, p.1 ≤ x ∧ x < p.1 + p.2 := by
  induction l with
  | nil => simp
  | cons p l ih => simp [ih]

@[simp] theorem total_nil : total [] = 0 := rfl

@[simp] theorem total_cons : total (p :: l) = p.2 + total l := by simp [total]

@[simp] theorem total_append : total (l ++ l') = total l + total l' := by simp [total]

theorem gapped_cons : Gapped (p :: l) ↔ (∀ q ∈ l, p.1 + p.2 < q.1) ∧ Gapped l :=
  List.pairwise_cons

theorem gapped_append :
    Gapped (l ++ l') ↔ Gapped l ∧ Gapped l' ∧ ∀ p ∈ l, ∀ q ∈ l', p.1 + p.2 < q.1 :=
  List.pairwise_append

@[simp] theorem coalesced_nil : Coalesced [] := ⟨fun _ h => absurd h List.not_mem_nil, .nil⟩

theorem coalesced_cons :
    Coalesced (p :: l) ↔ 0 < p.2 ∧ (∀ q ∈ l, p.1 + p.2 < q.1) ∧ Coalesced l := by
  simp only [Coalesced, List.mem_cons, forall_eq_or_imp, gapped_cons, and_assoc]
  exact and_congr_right fun _ => and_left_comm

theorem coalesced_append : Coalesced (l ++ l') ↔
    Coalesced l ∧ Coalesced l' ∧ ∀ p ∈ l, ∀ q ∈ l', p.1 + p.2 < q.1 := by
  simp only [Coalesced, List.mem_append, gapped_append]
  constructor
  · rintro ⟨hpos, hl, hl', hlt⟩
    exact ⟨⟨fun p hp => hpos p (Or.inl hp), hl⟩, ⟨fun p hp => hpos p (Or.inr hp), hl'⟩, hlt⟩
  · rintro ⟨⟨hpos, hl⟩, ⟨hpos', hl'⟩, hlt⟩
    exact ⟨fun p hp => hp.elim (hpos p) (hpos' p), hl, hl', hlt⟩

theorem Coalesced.tail (h : Coalesced (p :: l)) : Coalesced l := (Iff.mp coalesced_cons h).2.2

theorem Coalesced.sublist (h : Coalesced l) (hs : l'.Sublist l) : Coalesced l' :=
  ⟨fun p hp => h.1 p (hs.subset hp), h.2.sublist hs⟩

/-- The intervals start in increasing order. -/
theorem Coalesced.sorted (h : Coalesced l) : Sorted l := by
  unfold Sorted keys
  refine List.Pairwise.map _ ?_ h.2
  intro p q hpq
  omega

/-- A number below the start of the first interval is in none of them. -/
theorem not_mem_den_of_lt (h : Coalesced (p :: l)) (hx : x < p.1) : x ∉ den (p :: l) := by
  rw [mem_den]
  rintro ⟨q, hq, hqx, -⟩
  rcases List.mem_cons.mp hq with rfl | hq
  · omega
  · have := (Iff.mp coalesced_cons h).2.1 q hq
    omega

theorem start_mem_den (hp : 0 < p.2) : p.1 ∈ den (p :: l) :=
  Finset.mem_union_left _ (Finset.mem_Ico.mpr ⟨le_rfl, by omega⟩)

/-- Everything after the first interval lies beyond its end. -/
theorem lt_of_mem_den_tail (h : Coalesced (p :: l)) (hx : x ∈ den l) : p.1 + p.2 < x := by
  obtain ⟨q, hq, hqx, -⟩ := Iff.mp mem_den hx
  have := (Iff.mp coalesced_cons h).2.1 q hq
  omega

/-- Two distinct intervals of a gapped list lie one before the other. -/
theorem Gapped.before_or_after (h : Gapped l) (hp : p ∈ l) (hq : q ∈ l) (hne : p ≠ q) :
    p.1 + p.2 < q.1 ∨ q.1 + q.2 < p.1 := by
  induction l with
  | nil => cases hp
  | cons r l ih =>
    rw [gapped_cons] at h
    rcases List.mem_cons.mp hp with hpr | hpl <;> rcases List.mem_cons.mp hq with hqr | hql
    · exact absurd (hpr.trans hqr.symm) hne
    · exact Or.inl (hpr ▸ h.1 q hql)
    · exact Or.inr (hqr ▸ h.1 p hpl)
    · exact ih h.2 hpl hql

/-- A number lies in at most one interval. -/
theorem Coalesced.unique (h : Coalesced l) (hp : p ∈ l) (hq : q ∈ l)
    (hxp : p.1 ≤ x ∧ x < p.1 + p.2) (hxq : q.1 ≤ x ∧ x < q.1 + q.2) : p = q := by
  by_contra hne
  rcases h.2.before_or_after hp hq hne with hlt | hlt <;> omega

/-- A non-empty range inside the set lies inside one interval. -/
theorem Coalesced.within (h : Coalesced l) {a b : ℕ} (hab : a < b)
    (hsub : Finset.Ico a b ⊆ den l) : ∃ p ∈ l, p.1 ≤ a ∧ b ≤ p.1 + p.2 := by
  obtain ⟨p, hp, hpa, hap⟩ := Iff.mp mem_den (hsub (Finset.mem_Ico.mpr ⟨le_rfl, hab⟩))
  refine ⟨p, hp, hpa, ?_⟩
  by_contra hb
  obtain ⟨q, hq, hqe, heq⟩ :=
    Iff.mp mem_den (hsub (Finset.mem_Ico.mpr ⟨by omega, by omega⟩ : p.1 + p.2 ∈ Finset.Ico a b))
  have hne : p ≠ q := by
    rintro rfl
    omega
  rcases h.2.before_or_after hp hq hne with hlt | hlt <;> omega

/-- The total length of a gapped list is the number of elements it denotes. -/
theorem card_den (h : Gapped l) : (den l).card = total l := by
  induction l with
  | nil => rfl
  | cons p l ih =>
    rw [gapped_cons] at h
    have hdisj : Disjoint (Finset.Ico p.1 (p.1 + p.2)) (den l) := by
      rw [Finset.disjoint_left]
      intro x hx hxl
      obtain ⟨q, hq, hqx, -⟩ := Iff.mp mem_den hxl
      have := h.1 q hq
      have := (Finset.mem_Ico.mp hx).2
      omega
    rw [den_cons, Finset.card_union_of_disjoint hdisj, Nat.card_Ico, ih h.2, total_cons]
    omega

/-- Adding a range disjoint from the set adds its length to the total. -/
theorem total_of_den_union (h : Coalesced l) (h' : Coalesced l') {a b : ℕ}
    (hden : den l' = den l ∪ Finset.Ico a b) (hdisj : Disjoint (den l) (Finset.Ico a b)) :
    total l' = total l + (b - a) := by
  rw [← card_den h.2, ← card_den h'.2, hden, Finset.card_union_of_disjoint hdisj, Nat.card_Ico]

/-- Removing a range inside the set takes its length off the total. -/
theorem total_of_den_sdiff (h : Coalesced l) (h' : Coalesced l') {a b : ℕ}
    (hden : den l' = den l \ Finset.Ico a b) (hsub : Finset.Ico a b ⊆ den l) :
    total l' + (b - a) = total l := by
  rw [← card_den h.2, ← card_den h'.2, hden, Finset.card_sdiff_of_subset hsub, Nat.card_Ico]
  have := Finset.card_le_card hsub
  rw [Nat.card_Ico] at this
  omega

/-- The intervals ending at or below `t` come first in a gapped list. -/
theorem Gapped.end_gt_of_mem_dropWhile (h : Gapped l) {t : ℕ}
    (hq : q ∈ l.dropWhile fun p => decide (p.1 + p.2 ≤ t)) : t < q.1 + q.2 := by
  induction l with
  | nil => cases hq
  | cons r l ih =>
    rw [gapped_cons] at h
    by_cases hr : r.1 + r.2 ≤ t
    · simp only [List.dropWhile_cons, hr, decide_true] at hq
      exact ih h.2 hq
    · simp only [List.dropWhile_cons, hr, decide_false] at hq
      rcases List.mem_cons.mp hq with rfl | hq
      · omega
      · have := h.1 q hq
        omega

theorem Gapped.end_ge_of_mem_dropWhile (h : Gapped l) {t : ℕ}
    (hq : q ∈ l.dropWhile fun p => decide (p.1 + p.2 < t)) : t ≤ q.1 + q.2 := by
  induction l with
  | nil => cases hq
  | cons r l ih =>
    rw [gapped_cons] at h
    by_cases hr : r.1 + r.2 < t
    · simp only [List.dropWhile_cons, hr, decide_true] at hq
      exact ih h.2 hq
    · simp only [List.dropWhile_cons, hr, decide_false] at hq
      rcases List.mem_cons.mp hq with rfl | hq
      · omega
      · have := h.1 q hq
        omega

/-- A coalesced list is determined by the set it denotes. -/
theorem Coalesced.eq_of_den_eq (h : Coalesced l) (h' : Coalesced l') (hden : den l = den l') :
    l = l' := by
  induction l generalizing l' with
  | nil =>
    cases l' with
    | nil => rfl
    | cons q l' =>
      have : q.1 ∈ den (q :: l') := start_mem_den (Iff.mp coalesced_cons h').1
      rw [← hden] at this
      simp at this
  | cons p l ih =>
    cases l' with
    | nil =>
      have : p.1 ∈ den (p :: l) := start_mem_den (Iff.mp coalesced_cons h).1
      rw [hden] at this
      simp at this
    | cons q l' =>
      obtain ⟨hp, hpl, hl⟩ := Iff.mp coalesced_cons h
      obtain ⟨hq, hql, hl'⟩ := Iff.mp coalesced_cons h'
      have hstart : p.1 = q.1 := by
        have hpq : p.1 ∈ den (q :: l') := hden ▸ start_mem_den hp
        have hqp : q.1 ∈ den (p :: l) := hden.symm ▸ start_mem_den hq
        by_contra hne
        rcases Nat.lt_or_gt_of_ne hne with hlt | hlt
        · exact not_mem_den_of_lt h' hlt hpq
        · exact not_mem_den_of_lt h hlt hqp
      have hend : p.1 + p.2 = q.1 + q.2 := by
        by_contra hne
        rcases Nat.lt_or_gt_of_ne hne with hlt | hlt
        · have hin : p.1 + p.2 ∈ den (q :: l') := by
            rw [den_cons, Finset.mem_union, Finset.mem_Ico]
            exact Or.inl ⟨by omega, hlt⟩
          rw [← hden, den_cons, Finset.mem_union, Finset.mem_Ico] at hin
          rcases hin with hin | hin
          · omega
          · have := lt_of_mem_den_tail h hin
            omega
        · have hin : q.1 + q.2 ∈ den (p :: l) := by
            rw [den_cons, Finset.mem_union, Finset.mem_Ico]
            exact Or.inl ⟨by omega, hlt⟩
          rw [hden, den_cons, Finset.mem_union, Finset.mem_Ico] at hin
          rcases hin with hin | hin
          · omega
          · have := lt_of_mem_den_tail h' hin
            omega
      have hpq : p = q := Prod.ext hstart (by omega)
      subst hpq
      have hrest : den l = den l' := by
        ext x
        have hx := congrArg (x ∈ ·) hden
        simp only [den_cons, Finset.mem_union, Finset.mem_Ico, eq_iff_iff] at hx
        constructor
        · intro hxl
          have := lt_of_mem_den_tail h hxl
          exact (hx.mp (Or.inr hxl)).resolve_left (by omega)
        · intro hxl
          have := lt_of_mem_den_tail h' hxl
          exact (hx.mpr (Or.inr hxl)).resolve_left (by omega)
      rw [ih hl hl' hrest]

/-! ### Two coalesced lists side by side

What a walk over two coalesced lists at once sees: the common part of the two sets splits
at the first interval of each. -/

/-- Nothing of a coalesced list lies before its first start. -/
theorem le_of_mem_den_cons (h : Coalesced (p :: l)) (hx : x ∈ den (p :: l)) : p.1 ≤ x := by
  by_contra hlt
  exact not_mem_den_of_lt h (not_le.mp hlt) hx

/-- An interval that ends by the start of a coalesced list meets none of it. -/
theorem den_cons_inter_of_le (h : Coalesced (q :: l')) (hpq : p.1 + p.2 ≤ q.1) :
    den (p :: l) ∩ den (q :: l') = den l ∩ den (q :: l') := by
  have hdisj : Disjoint (Finset.Ico p.1 (p.1 + p.2)) (den (q :: l')) := by
    rw [Finset.disjoint_left]
    intro y hy hy'
    have := le_of_mem_den_cons h hy'
    rw [Finset.mem_Ico] at hy
    omega
  rw [den_cons, Finset.union_inter_distrib_right, Finset.disjoint_iff_inter_eq_empty.mp hdisj,
    Finset.empty_union]

/-- Two coalesced lists that start with the same interval share it and then what their
tails share. -/
theorem den_cons_inter_cons_self (h : Coalesced (p :: l)) (h' : Coalesced (p :: l')) :
    den (p :: l) ∩ den (p :: l') = Finset.Ico p.1 (p.1 + p.2) ∪ den l ∩ den l' := by
  ext y
  have h1 : y ∈ den l → p.1 + p.2 < y := lt_of_mem_den_tail h
  have h2 : y ∈ den l' → p.1 + p.2 < y := lt_of_mem_den_tail h'
  simp only [den_cons, Finset.mem_inter, Finset.mem_union, Finset.mem_Ico]
  by_cases ha : y ∈ den l <;> by_cases hb : y ∈ den l' <;>
    simp only [ha, hb, true_implies, false_implies, or_true, or_false, and_true, and_false,
      true_and] at h1 h2 ⊢
  omega

/-- Where the first interval `p` of one coalesced list ends by the end of the first interval
`q` of another, the two share `p ∩ q` and then what the tail after `p` shares with the
other list. -/
theorem den_cons_inter_of_end_le (h : Coalesced (p :: l)) (h' : Coalesced (q :: l'))
    (hpq : p.1 + p.2 ≤ q.1 + q.2) :
    den (p :: l) ∩ den (q :: l') = Finset.Ico (max p.1 q.1) (p.1 + p.2) ∪ den l ∩ den (q :: l') := by
  ext y
  have h1 : y ∈ den l → p.1 + p.2 < y := lt_of_mem_den_tail h
  have h2 : y ∈ den l' → q.1 + q.2 < y := lt_of_mem_den_tail h'
  simp only [den_cons, Finset.mem_inter, Finset.mem_union, Finset.mem_Ico, max_le_iff]
  by_cases ha : y ∈ den l <;> by_cases hb : y ∈ den l' <;>
    simp only [ha, hb, true_implies, false_implies, or_true, or_false, and_true, true_and,
      false_and] at h1 h2 ⊢ <;> omega

/-- `den_cons_inter_of_end_le` with the two lists swapped. -/
theorem den_cons_inter_of_end_ge (h : Coalesced (p :: l)) (h' : Coalesced (q :: l'))
    (hqp : q.1 + q.2 ≤ p.1 + p.2) :
    den (p :: l) ∩ den (q :: l') = Finset.Ico (max p.1 q.1) (q.1 + q.2) ∪ den (p :: l) ∩ den l' := by
  rw [Finset.inter_comm, den_cons_inter_of_end_le h' h hqp, max_comm, Finset.inter_comm (den l')]

/-- The end of an interval of a coalesced list is outside the set. -/
theorem Coalesced.end_not_mem (h : Coalesced l) (hp : p ∈ l) : p.1 + p.2 ∉ den l := by
  rw [mem_den]
  rintro ⟨q, hq, h1, h2⟩
  by_cases hpq : p = q
  · subst hpq
    omega
  · rcases h.2.before_or_after hp hq hpq with h' | h' <;> omega

/-- What lies beyond a coalesced prefix `k` shares nothing with it. -/
theorem den_inter_append (h : Coalesced (k ++ l)) :
    den l ∩ den (k ++ l') = den l ∩ den l' := by
  have hdisj : Disjoint (den l) (den k) := by
    rw [Finset.disjoint_left]
    intro x hx hx'
    obtain ⟨f, hf, hf1, -⟩ := Iff.mp mem_den hx
    obtain ⟨e, he, -, he2⟩ := Iff.mp mem_den hx'
    have := (Iff.mp coalesced_append h).2.2 e he f hf
    omega
  rw [den_append, Finset.inter_union_distrib_left, Finset.disjoint_iff_inter_eq_empty.mp hdisj,
    Finset.empty_union]

/-! ### The least values of a set

`span_of` takes a given number of the least values of a set from a point on. Over a set
that starts with an interval `[a, b)` and goes on beyond it, these are a first part of the
interval or the whole interval and then the least values of the rest. -/

/-- The `k` least elements of `X`: those with fewer than `k` elements of `X` below them. -/
def firstN (X : Finset ℕ) (k : ℕ) : Finset ℕ := X.filter fun x => (X.filter (· < x)).card < k

section FirstN

variable {X : Finset ℕ} {a b k : ℕ}

theorem firstN_subset (X : Finset ℕ) (k : ℕ) : firstN X k ⊆ X := Finset.filter_subset _ _

@[simp] theorem firstN_empty (k : ℕ) : firstN ∅ k = ∅ := rfl

@[simp] theorem firstN_zero (X : Finset ℕ) : firstN X 0 = ∅ :=
  Finset.filter_false_of_mem fun _ _ => Nat.not_lt_zero _

/-- Below a value of the first interval lie the values of the interval before it. -/
theorem card_filter_lt_of_mem_Ico (hX : ∀ y ∈ X, b ≤ y) (hx : x ∈ Finset.Ico a b) :
    ((Finset.Ico a b ∪ X).filter (· < x)).card = x - a := by
  rw [Finset.mem_Ico] at hx
  have hnone : X.filter (· < x) = ∅ :=
    Finset.filter_false_of_mem fun y hy => not_lt.mpr (by have := hX y hy; omega)
  rw [Finset.filter_union, Finset.Ico_filter_lt, hnone, Finset.union_empty, Nat.card_Ico,
    min_eq_right hx.2.le]

/-- Below a value past the first interval lie the whole interval and what of the rest is
below it. -/
theorem card_filter_lt_of_mem (hX : ∀ y ∈ X, b ≤ y) (hx : x ∈ X) :
    ((Finset.Ico a b ∪ X).filter (· < x)).card = (b - a) + (X.filter (· < x)).card := by
  have hdisj : Disjoint (Finset.Ico a b) (X.filter (· < x)) := by
    rw [Finset.disjoint_left]
    intro y hy hy'
    have := hX y (Finset.mem_filter.mp hy').1
    rw [Finset.mem_Ico] at hy
    omega
  rw [Finset.filter_union, Finset.Ico_filter_lt, min_eq_left (hX x hx),
    Finset.card_union_of_disjoint hdisj, Nat.card_Ico]

/-- Fewer values than the first interval holds: a first part of it. -/
theorem firstN_Ico_union_of_le (hab : a ≤ b) (hX : ∀ y ∈ X, b ≤ y) (hk : k ≤ b - a) :
    firstN (Finset.Ico a b ∪ X) k = Finset.Ico a (a + k) := by
  ext x
  rw [firstN, Finset.mem_filter, Finset.mem_union]
  constructor
  · rintro ⟨hx | hx, hc⟩
    · rw [card_filter_lt_of_mem_Ico hX hx] at hc
      rw [Finset.mem_Ico] at hx ⊢
      omega
    · rw [card_filter_lt_of_mem hX hx] at hc
      omega
  · intro hx
    rw [Finset.mem_Ico] at hx
    have hx' : x ∈ Finset.Ico a b := Finset.mem_Ico.mpr ⟨hx.1, by omega⟩
    refine ⟨Or.inl hx', ?_⟩
    rw [card_filter_lt_of_mem_Ico hX hx']
    omega

/-- More values than the first interval holds: all of it, then the least values of the
rest. -/
theorem firstN_Ico_union_of_lt (hab : a ≤ b) (hX : ∀ y ∈ X, b ≤ y) (hk : b - a < k) :
    firstN (Finset.Ico a b ∪ X) k = Finset.Ico a b ∪ firstN X (k - (b - a)) := by
  ext x
  rw [firstN, Finset.mem_filter, Finset.mem_union, Finset.mem_union, firstN, Finset.mem_filter]
  constructor
  · rintro ⟨hx | hx, hc⟩
    · exact Or.inl hx
    · rw [card_filter_lt_of_mem hX hx] at hc
      exact Or.inr ⟨hx, by omega⟩
  · rintro (hx | ⟨hx, hc⟩)
    · refine ⟨Or.inl hx, ?_⟩
      rw [card_filter_lt_of_mem_Ico hX hx]
      rw [Finset.mem_Ico] at hx
      omega
    · refine ⟨Or.inr hx, ?_⟩
      rw [card_filter_lt_of_mem hX hx]
      omega

/-- At least the whole first interval: all of it, then the least values of the rest. -/
theorem firstN_Ico_union_of_ge (hab : a ≤ b) (hX : ∀ y ∈ X, b ≤ y) (hk : b - a ≤ k) :
    firstN (Finset.Ico a b ∪ X) k = Finset.Ico a b ∪ firstN X (k - (b - a)) := by
  rcases hk.lt_or_eq with hlt | heq
  · exact firstN_Ico_union_of_lt hab hX hlt
  · rw [firstN_Ico_union_of_le hab hX heq.ge, ← heq, Nat.sub_self, firstN_zero,
      Finset.union_empty, Nat.add_sub_cancel' hab]

end FirstN

end Intervals
