import Mathlib.Algebra.Group.Action.Defs
import Mathlib.Algebra.Order.BigOperators.Group.List
import Mathlib.Algebra.Order.Group.Nat
import Mathlib.Data.List.FinRange
import Lunule.BitPrefix.Tree

/-!
What a split tree holds under a cell, as searches over it see it: the cells of a split, listed
by their index; the leaves under a cell, listed in the order of their prefixes; and the number
of cells of the tree under a cell, which bounds the steps of a search that takes each of them
once. A cell of `b` bits has fewer than `2 ^ (w - b + 1)` cells of the tree under it.
-/

namespace BitPrefix

namespace Cell

variable {w : ℕ}

/-! ## The cells of a split -/

/-- The cells of `nb` more bits under `c`, by their index. -/
def children (c : Cell w) (nb : ℕ) (h : c.bits + nb ≤ w) : List (Cell w) :=
  (List.finRange (2 ^ nb)).map fun i : Fin (2 ^ nb) => c.extend nb i h i.2

section Children

variable {c : Cell w} {nb : ℕ} (h : c.bits + nb ≤ w)

theorem mem_children_iff {d : Cell w} : d ∈ c.children nb h ↔ c.Above d ∧ d.bits = c.bits + nb := by
  rw [children, List.mem_map]
  constructor
  · rintro ⟨i, -, rfl⟩
    exact ⟨above_extend h i i.2, rfl⟩
  · rintro ⟨hcd, hb⟩
    have hv := hcd.mem (mem_base d)
    refine ⟨⟨c.index nb (d.pre * 2 ^ (w - d.bits)), c.index_lt nb _⟩, List.mem_finRange _, ?_⟩
    rw [← ofWord_eq_extend h hv, ofWord_congr h d.bits_le hb.symm]
    exact ofWord_eq (mem_base d)

theorem nodup_children : (c.children nb h).Nodup :=
  (List.nodup_finRange _).map fun i j he => Fin.ext (extend_injective h i.2 j.2 he)

@[simp] theorem length_children : (c.children nb h).length = 2 ^ nb := by
  rw [children, List.length_map, List.length_finRange]

end Children

/-- Of two cells above one cell, the one of fewer bits is above the other. -/
theorem above_of_above_of_bits_le {c d e : Cell w} (hc : c.Above e) (hd : d.Above e)
    (hb : c.bits ≤ d.bits) : c.Above d :=
  above_of_mem (hc.mem (mem_base e)) (hd.mem (mem_base e)) hb

/-- Two cells of the same bits above one cell are the same. -/
theorem eq_of_above_of_bits_eq {c d e : Cell w} (hc : c.Above e) (hd : d.Above e)
    (hb : c.bits = d.bits) : c = d :=
  eq_of_mem_of_bits_eq (hc.mem (mem_base e)) (hd.mem (mem_base e)) hb

theorem eq_root_of_bits_eq_zero {c : Cell w} (h : c.bits = 0) : c = root := by
  refine ext' h ?_
  have := c.pre_lt
  rw [h, Nat.pow_zero] at this
  show c.pre = 0
  omega

section Tree

variable (S : Cell w → ℕ)

/-! ## The leaves under a cell -/

/-- The leaves of the tree under `c`, in the order of their prefixes. -/
def leavesUnder (c : Cell w) : List (Cell w) :=
  if h : 0 < S c ∧ c.bits + S c ≤ w then
    (List.finRange (2 ^ S c)).flatMap fun i : Fin (2 ^ S c) =>
      leavesUnder (c.extend (S c) i h.2 i.2)
  else [c]
termination_by w - c.bits
decreasing_by
  simp only [bits_extend]
  omega

/-- The number of cells of the tree under `c`. -/
def sizeUnder (c : Cell w) : ℕ :=
  if h : 0 < S c ∧ c.bits + S c ≤ w then
    ((List.finRange (2 ^ S c)).map fun i : Fin (2 ^ S c) =>
      sizeUnder (c.extend (S c) i h.2 i.2)).sum + 1
  else 1
termination_by w - c.bits
decreasing_by
  simp only [bits_extend]
  omega

variable {S}

theorem leavesUnder_of_eq_zero {c : Cell w} (h0 : S c = 0) : leavesUnder S c = [c] := by
  rw [leavesUnder, dif_neg (by omega)]

theorem leavesUnder_of_pos {c : Cell w} (hpos : 0 < S c) (hb : c.bits + S c ≤ w) :
    leavesUnder S c = (c.children (S c) hb).flatMap (leavesUnder S) := by
  rw [leavesUnder, dif_pos ⟨hpos, hb⟩, children, List.flatMap_map]

theorem sizeUnder_of_eq_zero {c : Cell w} (h0 : S c = 0) : sizeUnder S c = 1 := by
  rw [sizeUnder, dif_neg (by omega)]

theorem sizeUnder_of_pos {c : Cell w} (hpos : 0 < S c) (hb : c.bits + S c ≤ w) :
    sizeUnder S c = ((c.children (S c) hb).map (sizeUnder S)).sum + 1 := by
  rw [sizeUnder, dif_pos ⟨hpos, hb⟩, children, List.map_map]
  rfl

theorem sizeUnder_of_eq {c : Cell w} {n : ℕ} (hn : S c = n) (hpos : 0 < n) (hb : c.bits + n ≤ w) :
    sizeUnder S c = ((c.children n hb).map (sizeUnder S)).sum + 1 := by
  subst hn
  exact sizeUnder_of_pos hpos hb

/-- The count under a cell reads only the splits under it. The induction is on the bits left. -/
theorem sizeUnder_congr {S' : Cell w → ℕ} {c : Cell w} (h : ∀ d, c.Above d → S d = S' d) :
    sizeUnder S c = sizeUnder S' c := by
  induction hn : w - c.bits using Nat.strong_induction_on generalizing c with
  | _ n ih =>
    have hc := h c (Above.refl c)
    by_cases hsplit : 0 < S c ∧ c.bits + S c ≤ w
    · rw [sizeUnder_of_pos hsplit.1 hsplit.2, sizeUnder_of_eq hc.symm hsplit.1 hsplit.2]
      congr 2
      refine List.map_congr_left fun d hd => ?_
      have hcd := (mem_children_iff hsplit.2).1 hd
      have := hcd.2
      exact ih (w - d.bits) (by omega) (fun e hde => h e (hcd.1.trans hde)) rfl
    · rw [sizeUnder, dif_neg hsplit, sizeUnder, dif_neg (by rw [← hc]; exact hsplit)]

theorem one_le_sizeUnder (c : Cell w) : 1 ≤ sizeUnder S c := by
  rw [sizeUnder]
  split <;> omega

/-- Fewer than `2 ^ (w - b + 1)` cells of the tree lie under a cell of `b` bits: a split by `nb`
bits puts `2 ^ nb ≥ 2` cells of `nb` bits fewer under the cell. The induction is on the bits
left below the cell. -/
theorem sizeUnder_lt (c : Cell w) : sizeUnder S c < 2 ^ (w - c.bits + 1) := by
  induction hn : w - c.bits using Nat.strong_induction_on generalizing c with
  | _ n ih =>
    by_cases hsplit : 0 < S c ∧ c.bits + S c ≤ w
    · obtain ⟨hpos, hb⟩ := hsplit
      have hchild : ∀ d ∈ c.children (S c) hb, sizeUnder S d ≤ 2 ^ (w - (c.bits + S c) + 1) - 1 := by
        intro d hd
        have hdb := ((mem_children_iff hb).1 hd).2
        have := ih (w - d.bits) (by omega) d rfl
        rw [hdb] at this
        omega
      have hsum : ((c.children (S c) hb).map (sizeUnder S)).sum ≤
          2 ^ S c * (2 ^ (w - (c.bits + S c) + 1) - 1) := by
        have := List.sum_le_card_nsmul ((c.children (S c) hb).map (sizeUnder S))
          (2 ^ (w - (c.bits + S c) + 1) - 1) fun x hx => by
            obtain ⟨d, hd, rfl⟩ := List.mem_map.1 hx
            exact hchild d hd
        simpa only [List.length_map, length_children, smul_eq_mul] using this
      have hpow : 2 ^ (w - c.bits + 1) = 2 ^ S c * 2 ^ (w - (c.bits + S c) + 1) := by
        rw [← Nat.pow_add]
        congr 1
        omega
      have htwo : 2 ≤ 2 ^ S c := Nat.le_self_pow (by omega) 2
      have hle : 2 ^ S c ≤ 2 ^ S c * 2 ^ (w - (c.bits + S c) + 1) :=
        Nat.le_mul_of_pos_right _ (Nat.two_pow_pos _)
      rw [Nat.mul_sub_one] at hsum
      rw [sizeUnder_of_pos hpos hb, ← hn, hpow]
      omega
    · rw [sizeUnder, dif_neg hsplit]
      exact Nat.one_lt_two_pow (by omega)

/-- A leaf listed under `c` lies under `c`. -/
theorem above_of_mem_leavesUnder {c l : Cell w} (hl : l ∈ leavesUnder S c) : c.Above l := by
  induction hn : w - c.bits using Nat.strong_induction_on generalizing c with
  | _ n ih =>
    by_cases hsplit : 0 < S c ∧ c.bits + S c ≤ w
    · rw [leavesUnder_of_pos hsplit.1 hsplit.2, List.mem_flatMap] at hl
      obtain ⟨d, hd, hld⟩ := hl
      have hcd := (mem_children_iff hsplit.2).1 hd
      exact hcd.1.trans (ih (w - d.bits) (by omega) hld rfl)
    · rw [leavesUnder, dif_neg hsplit, List.mem_singleton] at hl
      rw [hl]
      exact Above.refl c

/-- No leaf is listed twice: the cells of a split share no cell under them. -/
theorem nodup_leavesUnder (c : Cell w) : (leavesUnder S c).Nodup := by
  induction hn : w - c.bits using Nat.strong_induction_on generalizing c with
  | _ n ih =>
    by_cases hsplit : 0 < S c ∧ c.bits + S c ≤ w
    · rw [leavesUnder_of_pos hsplit.1 hsplit.2, List.nodup_flatMap]
      refine ⟨fun d hd => ih (w - d.bits) ?_ d rfl, ?_⟩
      · have := ((mem_children_iff hsplit.2).1 hd).2
        omega
      · refine (nodup_children hsplit.2).imp_of_mem fun {d e} hd he hde => ?_
        intro l hld hle
        have hbd := ((mem_children_iff hsplit.2).1 hd).2
        have hbe := ((mem_children_iff hsplit.2).1 he).2
        exact hde (eq_of_above_of_bits_eq (above_of_mem_leavesUnder hld)
          (above_of_mem_leavesUnder hle) (hbd.trans hbe.symm))
    · rw [leavesUnder, dif_neg hsplit]
      exact List.nodup_singleton c

/-! ## Reaching through the cells of a split -/

/-- A cell of the split of a reached cell is reached. -/
theorem Reach.child {s c d : Cell w} (hr : Reach S s c) (hpos : 0 < S c) (hb : c.bits + S c ≤ w)
    (hd : d ∈ c.children (S c) hb) : Reach S s d :=
  hr.step_above hpos ((mem_children_iff hb).1 hd).1 ((mem_children_iff hb).1 hd).2

/-- What `s` reaches is `s`, or is reached from a cell of the split of `s`. -/
theorem Reach.head {s c : Cell w} (h : Reach S s c) :
    c = s ∨ ∃ hs : 0 < S s ∧ s.bits + S s ≤ w, ∃ d ∈ s.children (S s) hs.2, Reach S d c := by
  induction h with
  | refl => exact .inl rfl
  | @step e v he _ hpos hv ih =>
    right
    rcases ih with rfl | ⟨hs, d, hd, hde⟩
    · refine ⟨⟨hpos, he⟩, _, (mem_children_iff he).2 ⟨ofWord_above hv _ he (Nat.le_add_right _ _),
        rfl⟩, .refl⟩
    · exact ⟨hs, d, hd, hde.step he hpos hv⟩

/-- The leaves listed under `c` are the cells `c` reaches that are not split. -/
theorem mem_leavesUnder_iff (hb : ∀ c, 0 < S c → c.bits + S c ≤ w) {c l : Cell w} :
    l ∈ leavesUnder S c ↔ Reach S c l ∧ S l = 0 := by
  induction hn : w - c.bits using Nat.strong_induction_on generalizing c with
  | _ n ih =>
    rcases Nat.eq_zero_or_pos (S c) with h0 | hpos
    · rw [leavesUnder_of_eq_zero h0, List.mem_singleton]
      constructor
      · rintro rfl
        exact ⟨.refl, h0⟩
      · rintro ⟨hr, -⟩
        rcases hr.eq_or_le with he | ⟨hpos, -⟩
        · exact he
        · omega
    · have hcb := hb c hpos
      rw [leavesUnder_of_pos hpos hcb, List.mem_flatMap]
      have ihd : ∀ d ∈ c.children (S c) hcb, (l ∈ leavesUnder S d ↔ Reach S d l ∧ S l = 0) := by
        intro d hd
        have := ((mem_children_iff hcb).1 hd).2
        exact ih (w - d.bits) (by omega) rfl
      constructor
      · rintro ⟨d, hd, hl⟩
        obtain ⟨hdl, h0⟩ := (ihd d hd).1 hl
        exact ⟨(Reach.refl.child hpos hcb hd).trans hdl, h0⟩
      · rintro ⟨hr, h0⟩
        rcases hr.head with rfl | ⟨_, d, hd, hdl⟩
        · omega
        · exact ⟨d, hd, (ihd d hd).2 ⟨hdl, h0⟩⟩

/-- In a tree, the whole space and the split cells are reached. -/
theorem IsTree.reach_of (hT : IsTree S) {c : Cell w} (h : c = root ∨ 0 < S c) : Reach S root c :=
  h.elim (fun hc => hc ▸ .refl) (hT.reach c)

/-- In a tree, the leaves listed under the whole space are its leaves. -/
theorem IsTree.mem_leavesUnder_root_iff (hT : IsTree S) {l : Cell w} :
    l ∈ leavesUnder S root ↔ IsLeaf S l :=
  mem_leavesUnder_iff hT.bound

end Tree

end Cell

end BitPrefix
