import Mathlib.Data.List.Perm.Basic
import Mathlib.Data.List.TakeWhile
import Mathlib.Order.Lattice

/-!
Multimaps ordered by a comparison function, as a container with a comparison parameter keeps
them: a list in comparison order, equal elements in the order they were inserted. `insert` puts
an element after every one that does not compare above it; `fromLowerBound` is the part from
the first element that does not compare below a probe; `eraseFirst` walks the elements equal to
the probe from there and erases the first one that passes a test. With a comparison that is the
order of a key in a linear order, insertion keeps the order and is a permutation of consing, and
`eraseFirst` takes out one qualifying element whenever there is one.
-/

namespace SortedBag

variable {α κ : Type} [LinearOrder κ] (cmp : α → α → Ordering)

def insert (l : List α) (a : α) : List α :=
  l.takeWhile (fun x => cmp x a ≠ .gt) ++ a :: l.dropWhile (fun x => cmp x a ≠ .gt)

def fromLowerBound (l : List α) (a : α) : List α := l.dropWhile fun x => cmp x a = .lt

def eraseEqual (a : α) (p : α → Bool) : List α → List α
  | [] => []
  | x :: l => if cmp x a = .eq then (if p x then l else x :: eraseEqual a p l) else x :: l

def eraseFirst (l : List α) (a : α) (p : α → Bool) : List α :=
  l.takeWhile (fun x => cmp x a = .lt) ++ eraseEqual cmp a p (fromLowerBound cmp l a)

def Sorted (l : List α) : Prop := l.Pairwise fun x y => cmp x y ≠ .gt

theorem perm_insert (l : List α) (a : α) : (insert cmp l a).Perm (a :: l) := by
  rw [insert]
  exact List.perm_middle.trans (by rw [List.takeWhile_append_dropWhile])

theorem eraseEqual_sublist (a : α) (p : α → Bool) (l : List α) :
    (eraseEqual cmp a p l).Sublist l := by
  induction l with
  | nil => exact List.Sublist.slnil
  | cons x l ih =>
    unfold eraseEqual
    split_ifs
    · exact List.sublist_cons_self x l
    · exact ih.cons_cons x
    · exact List.Sublist.refl _

theorem eraseFirst_sublist (l : List α) (a : α) (p : α → Bool) :
    (eraseFirst cmp l a p).Sublist l := by
  have h := (List.Sublist.refl (l.takeWhile fun x => cmp x a = .lt)).append
    (eraseEqual_sublist cmp a p (fromLowerBound cmp l a))
  rwa [fromLowerBound, List.takeWhile_append_dropWhile] at h

theorem Sorted.eraseFirst {l : List α} (hl : Sorted cmp l) (a : α) (p : α → Bool) :
    Sorted cmp (SortedBag.eraseFirst cmp l a p) :=
  hl.sublist (eraseFirst_sublist cmp l a p)

/-- Past a `dropWhile` over a sorted list, the test fails everywhere, when a test that holds
of an element holds of every element before it. -/
theorem not_of_mem_dropWhile {R : α → α → Prop} {P : α → Bool} (hP : ∀ x y, R x y → P y → P x) :
    ∀ {l : List α}, l.Pairwise R → ∀ y ∈ l.dropWhile P, P y = false
  | [], _, y, hy => by simp at hy
  | x :: l, hl, y, hy => by
    rw [List.pairwise_cons] at hl
    by_cases hx : P x
    · rw [List.dropWhile_cons_of_pos hx] at hy
      exact not_of_mem_dropWhile hP hl.2 y hy
    · rw [List.dropWhile_cons_of_neg hx] at hy
      rcases List.mem_cons.mp hy with rfl | hy
      · simpa using hx
      · by_contra hPy
        exact hx (hP x y (hl.1 y hy) (by simpa using hPy))

/-- In a list ordered by `R`, where a test `D` that holds of an element holds of every element
before it: an element that fails `D` and passes `Q` survives dropping the leading run that passes
`D` and taking the run that passes `Q`, when every element before it that fails `D` passes `Q`. -/
theorem mem_takeWhile_dropWhile {R : α → α → Prop} {D Q : α → Bool}
    (hD : ∀ x y, R x y → D y = true → D x = true) :
    ∀ {l : List α}, l.Pairwise R → ∀ {y : α}, y ∈ l → D y = false → Q y = true →
      (∀ x ∈ l, R x y → D x = false → Q x = true) → y ∈ (l.dropWhile D).takeWhile Q
  | [], _, y, hy, _, _, _ => by simp at hy
  | x :: l, hl, y, hy, hDy, hQy, hbefore => by
    rw [List.pairwise_cons] at hl
    rcases List.mem_cons.mp hy with rfl | hy'
    · rw [List.dropWhile_cons_of_neg (by simp [hDy]), List.takeWhile_cons_of_pos hQy]
      exact List.mem_cons_self ..
    · by_cases hx : D x = true
      · rw [List.dropWhile_cons_of_pos hx]
        exact mem_takeWhile_dropWhile hD hl.2 hy' hDy hQy
          fun z hz => hbefore z (List.mem_cons_of_mem _ hz)
      · have hDx : D x = false := by simpa using hx
        have hQx : Q x = true := hbefore x (List.mem_cons_self ..) (hl.1 y hy') hDx
        rw [List.dropWhile_cons_of_neg (by simp [hDx]), List.takeWhile_cons_of_pos hQx]
        refine List.mem_cons_of_mem _ ?_
        cases l with
        | nil => cases hy'
        | cons z l =>
          have hDz : D z = false := by
            cases h : D z
            · rfl
            · exact absurd (hD x z (hl.1 z (List.mem_cons_self ..)) h) hx
          have h := mem_takeWhile_dropWhile hD hl.2 hy' hDy hQy
            fun w hw => hbefore w (List.mem_cons_of_mem _ hw)
          rwa [List.dropWhile_cons_of_neg (by simp [hDz])] at h

section Key

variable {cmp} {key : α → κ} (hcmp : ∀ x y, cmp x y = compare (key x) (key y))
include hcmp

theorem sorted_iff {l : List α} : Sorted cmp l ↔ l.Pairwise fun x y => key x ≤ key y := by
  simp only [Sorted, hcmp, ne_eq, compare_gt_iff_gt, not_lt]

theorem Sorted.insert {l : List α} (hl : Sorted cmp l) (a : α) : Sorted cmp (insert cmp l a) := by
  rw [sorted_iff hcmp] at hl ⊢
  have hl' : (l.takeWhile (fun x => cmp x a ≠ .gt) ++ l.dropWhile (fun x => cmp x a ≠ .gt)).Pairwise
      fun x y => key x ≤ key y := by
    rwa [List.takeWhile_append_dropWhile]
  obtain ⟨htake, hdrop, hcross⟩ := List.pairwise_append.mp hl'
  have hbefore : ∀ x ∈ l.takeWhile (fun x => cmp x a ≠ .gt), key x ≤ key a := by
    intro x hx
    simpa [hcmp, compare_gt_iff_gt] using List.mem_takeWhile_imp hx
  have hafter : ∀ y ∈ l.dropWhile (fun x => cmp x a ≠ .gt), key a ≤ key y := by
    intro y hy
    have hy' := not_of_mem_dropWhile (fun x y (h : key x ≤ key y) hy => by
      simp only [hcmp, ne_eq, compare_gt_iff_gt, not_lt, decide_eq_true_eq] at hy ⊢
      exact h.trans hy) hl y hy
    simp only [hcmp, ne_eq, compare_gt_iff_gt, not_lt, decide_eq_false_iff_not] at hy'
    exact (not_le.1 hy').le
  rw [SortedBag.insert, List.pairwise_append, List.pairwise_cons]
  refine ⟨htake, ⟨hafter, hdrop⟩, fun x hx y hy => ?_⟩
  rcases List.mem_cons.mp hy with rfl | hy
  · exact hbefore x hx
  · exact hcross x hx y hy

theorem exists_perm_eraseEqual {a : α} {p : α → Bool} :
    ∀ {l : List α}, l.Pairwise (fun x y => key x ≤ key y) → (∀ y ∈ l, key a ≤ key y) →
      ∀ x ∈ l, key x = key a → p x →
        ∃ y ∈ l, key y = key a ∧ p y ∧ l.Perm (y :: eraseEqual cmp a p l)
  | [], _, _, x, hx, _, _ => by simp at hx
  | z :: l, hl, hge, x, hx, hxa, hpx => by
    rw [List.pairwise_cons] at hl
    by_cases hz : key z = key a
    · by_cases hpz : p z
      · refine ⟨z, List.mem_cons_self, hz, hpz, ?_⟩
        have hcz : cmp z a = .eq := by rw [hcmp, hz]; exact compare_eq_iff_eq.2 rfl
        simp [eraseEqual, hcz, hpz]
      · have hxl : x ∈ l := by
          rcases List.mem_cons.mp hx with rfl | hxl
          · exact absurd hpx hpz
          · exact hxl
        obtain ⟨y, hy, hya, hpy, hperm⟩ := exists_perm_eraseEqual hl.2
          (fun y hy => hge y (List.mem_cons_of_mem z hy)) x hxl hxa hpx
        refine ⟨y, List.mem_cons_of_mem z hy, hya, hpy, ?_⟩
        have hcz : cmp z a = .eq := by rw [hcmp, hz]; exact compare_eq_iff_eq.2 rfl
        simp only [eraseEqual, hcz, if_true, hpz, Bool.false_eq_true, if_false]
        exact (hperm.cons z).trans (List.Perm.swap y z _)
    · have hlt : key a < key z := lt_of_le_of_ne (hge z List.mem_cons_self) (Ne.symm hz)
      exfalso
      rcases List.mem_cons.mp hx with rfl | hxl
      · exact hz hxa
      · exact absurd (hl.1 x hxl) (by rw [hxa]; exact not_le.2 hlt)

/-- In a sorted multimap with an element equal to `a` that passes `p`, `eraseFirst` takes out
exactly one such element. -/
theorem exists_perm_eraseFirst {l : List α} (hl : Sorted cmp l) {a x : α} {p : α → Bool}
    (hx : x ∈ l) (hxa : cmp x a = .eq) (hpx : p x) :
    ∃ y ∈ l, cmp y a = .eq ∧ p y ∧ l.Perm (y :: SortedBag.eraseFirst cmp l a p) := by
  rw [sorted_iff hcmp] at hl
  have hxa' : key x = key a := by simpa [hcmp] using hxa
  have hsplit := List.takeWhile_append_dropWhile (p := fun y => cmp y a = .lt) (l := l)
  have hl' := hl
  rw [← hsplit, List.pairwise_append] at hl'
  have hge : ∀ y ∈ fromLowerBound cmp l a, key a ≤ key y := by
    intro y hy
    have hy' := not_of_mem_dropWhile (fun u v (h : key u ≤ key v) hv => by
      simp only [hcmp, compare_lt_iff_lt, decide_eq_true_eq] at hv ⊢
      exact lt_of_le_of_lt h hv) hl y hy
    simpa [hcmp, compare_lt_iff_lt, not_lt] using hy'
  have hxd : x ∈ fromLowerBound cmp l a := by
    rw [← hsplit, List.mem_append] at hx
    rcases hx with hx | hx
    · have := List.mem_takeWhile_imp hx
      simp [hcmp, hxa'] at this
    · exact hx
  obtain ⟨y, hy, hya, hpy, hperm⟩ :=
    exists_perm_eraseEqual hcmp hl'.2.1 hge x hxd hxa' hpx
  refine ⟨y, (List.dropWhile_sublist _).subset hy, by simp [hcmp, hya], hpy, ?_⟩
  rw [SortedBag.eraseFirst]
  conv_lhs => rw [← hsplit]
  exact (hperm.append_left _).trans List.perm_middle

end Key

end SortedBag
