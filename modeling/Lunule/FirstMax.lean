import Mathlib.Order.Lattice

/-!
A scan over the indices `0, ..., n - 1` that keeps the first index of greatest value: index `0`
is always taken, and a later index only for a value strictly greater than the one kept. The
scan's result is characterized by `IsFirstMax`, which determines the index; two value functions
that agree off one index `j` give the same first maximum unless one of them is `j`.
-/

namespace FirstMax

variable {β : Type} [LinearOrder β] {d d' : ℕ → β} {init : ℕ × β} {n a b j : ℕ}

def scanStep (d : ℕ → β) (acc : ℕ × β) (i : ℕ) : ℕ × β :=
  if i = 0 ∨ acc.2 < d i then (i, d i) else acc

def scan (d : ℕ → β) (init : ℕ × β) (n : ℕ) : ℕ × β :=
  (List.range n).foldl (scanStep d) init

theorem scan_succ (d : ℕ → β) (init : ℕ × β) (n : ℕ) :
    scan d init (n + 1) = scanStep d (scan d init n) n := by
  rw [scan, List.range_succ, List.foldl_append, List.foldl_cons, List.foldl_nil, scan]

/-- `a` is the first index below `n` whose value is greatest. -/
structure IsFirstMax (d : ℕ → β) (n a : ℕ) : Prop where
  lt : a < n
  le : ∀ i < n, d i ≤ d a
  lt_of_lt : ∀ i < a, d i < d a

theorem IsFirstMax.eq (ha : IsFirstMax d n a) (hb : IsFirstMax d n b) : a = b := by
  rcases Nat.lt_trichotomy a b with hab | rfl | hab
  · exact absurd (hb.lt_of_lt a hab) (not_lt.2 (ha.le b hb.lt))
  · rfl
  · exact absurd (ha.lt_of_lt b hab) (not_lt.2 (hb.le a ha.lt))

/-- The scan over a nonempty range ends at the first maximum, holding its value. -/
theorem isFirstMax_scan (hn : 0 < n) :
    IsFirstMax d n (scan d init n).1 ∧ (scan d init n).2 = d (scan d init n).1 := by
  induction n with
  | zero => omega
  | succ n ih =>
    rw [scan_succ]
    rcases Nat.eq_zero_or_pos n with rfl | hpos
    · refine ⟨⟨by simp [scanStep], fun i hi => ?_, fun i hi => ?_⟩, by simp [scanStep]⟩
      · obtain rfl : i = 0 := by omega
        simp [scanStep]
      · simp [scanStep] at hi
    obtain ⟨⟨hlt, hle, hfirst⟩, hval⟩ := ih hpos
    unfold scanStep
    by_cases hgt : (scan d init n).2 < d n
    · rw [if_pos (Or.inr hgt)]
      rw [hval] at hgt
      refine ⟨⟨Nat.lt_succ_self n, fun i hi => ?_, fun i hi => ?_⟩, rfl⟩
      · rcases Nat.lt_succ_iff_lt_or_eq.1 hi with hi | rfl
        · exact (hle i hi).trans hgt.le
        · exact le_rfl
      · exact (hle i hi).trans_lt hgt
    · rw [if_neg (not_or.2 ⟨by omega, hgt⟩)]
      rw [hval] at hgt
      refine ⟨⟨Nat.lt_succ_of_lt hlt, fun i hi => ?_, hfirst⟩, hval⟩
      rcases Nat.lt_succ_iff_lt_or_eq.1 hi with hi | rfl
      · exact hle i hi
      · exact not_lt.1 hgt

/-- Values that agree off `j` have the same first maximum unless one of the two is `j`. -/
theorem IsFirstMax.eq_of_eqOn (hd : ∀ i, i ≠ j → d i = d' i) (ha : IsFirstMax d n a)
    (hb : IsFirstMax d' n b) (haj : a ≠ j) (hbj : b ≠ j) : a = b := by
  have hda : d' a = d a := (hd a haj).symm
  have hdb : d' b = d b := (hd b hbj).symm
  have hab : d a = d b := by
    apply le_antisymm _ (ha.le b hb.lt)
    calc d a = d' a := hda.symm
      _ ≤ d' b := hb.le a ha.lt
      _ = d b := hdb
  rcases Nat.lt_trichotomy a b with h | h | h
  · have hlt := hb.lt_of_lt a h
    rw [hda, hdb, hab] at hlt
    exact absurd hlt (lt_irrefl _)
  · exact h
  · have hlt := ha.lt_of_lt b h
    rw [hab] at hlt
    exact absurd hlt (lt_irrefl _)

end FirstMax
