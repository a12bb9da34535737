import Mathlib.Data.Nat.Bitwise
import Mathlib.Data.Set.Defs

/-!
Prefix cells of `w`-bit words, the pieces a binary split of a word space names: the cell
with `bits` bits and prefix `pre` holds the words whose top `bits` bits read `pre`. The two
cells that differ only in the last bit of their prefix are siblings, and together they hold
what their parent holds. A set of cells with no two siblings in it covers a cell only
through one cell that holds it all. The first part gives the bit masks that select a prefix
in a word.
-/

namespace BitPrefix

/-! ## Masks -/

/-- The mask of the bits from `k` to `n`, as a run of ones shifted up. -/
theorem two_pow_sub_two_pow {n k : ℕ} (hk : k ≤ n) : 2 ^ n - 2 ^ k = (2 ^ (n - k) - 1) * 2 ^ k := by
  rw [Nat.sub_mul, Nat.one_mul, ← Nat.pow_add, Nat.sub_add_cancel hk]

/-- Masking with the bits from `k` to `n`. -/
theorem and_two_pow_sub_two_pow {x n k : ℕ} (hk : k ≤ n) :
    x &&& (2 ^ n - 2 ^ k) = x % 2 ^ n / 2 ^ k * 2 ^ k := by
  rw [two_pow_sub_two_pow hk]
  apply Nat.eq_of_testBit_eq
  intro i
  simp only [Nat.testBit_and, Nat.testBit_mul_two_pow, Nat.testBit_two_pow_sub_one,
    Nat.testBit_div_two_pow, Nat.testBit_mod_two_pow]
  by_cases hi : k ≤ i
  · rw [Nat.sub_add_cancel hi]
    by_cases hin : i < n
    · simp [hi, hin]
      omega
    · simp [hi, hin]
      omega
  · simp [hi]

/-- The `n` low ones shifted up by `k` in an `m`-bit word and cut back to `n` bits: the
mask of the bits from `k` to `n`. -/
theorem low_ones_mul_two_pow_mod_and {n k m : ℕ} (hk : k ≤ n) (hn : n ≤ m) :
    (2 ^ n - 1) * 2 ^ k % 2 ^ m &&& (2 ^ n - 1) = 2 ^ n - 2 ^ k := by
  rw [two_pow_sub_two_pow hk]
  apply Nat.eq_of_testBit_eq
  intro i
  simp only [Nat.testBit_and, Nat.testBit_mul_two_pow, Nat.testBit_two_pow_sub_one,
    Nat.testBit_mod_two_pow]
  by_cases hi : k ≤ i
  · by_cases hin : i < n
    · have him : i < m := by omega
      have hik : i - k < n - k := by omega
      simp [hi, hin, him, hik]
      omega
    · have hik : ¬ i - k < n - k := by omega
      simp [hin, hik]
  · simp [hi]

theorem mul_two_pow_xor_two_pow (p k : ℕ) : p * 2 ^ k ^^^ 2 ^ k = (p ^^^ 1) * 2 ^ k := by
  have h := (Nat.shiftLeft_xor_distrib (a := p) (b := 1) (i := k)).symm
  simpa [Nat.shiftLeft_eq] using h

theorem mul_two_pow_or {a x n : ℕ} (hx : x < 2 ^ n) : a * 2 ^ n ||| x = a * 2 ^ n + x := by
  rw [Nat.mul_comm, Nat.two_pow_add_eq_or_of_lt hx]

/-! ## Cells -/

/-- The `w`-bit words whose top `bits` bits read `pre`. -/
structure Cell (w : ℕ) where
  bits : ℕ
  pre : ℕ
  bits_le : bits ≤ w
  pre_lt : pre < 2 ^ bits

namespace Cell

variable {w : ℕ}

theorem ext' {c d : Cell w} (hb : c.bits = d.bits) (hp : c.pre = d.pre) : c = d := by
  cases c
  cases d
  cases hb
  cases hp
  rfl

/-- The word `v` lies in the cell. -/
def Mem (c : Cell w) (v : ℕ) : Prop := v / 2 ^ (w - c.bits) = c.pre

/-- `c` is `d` or a cell that holds it. -/
def Above (c d : Cell w) : Prop := c.bits ≤ d.bits ∧ d.pre / 2 ^ (d.bits - c.bits) = c.pre

/-- The cell of `b` bits that holds the word `v`. -/
def ofWord (b : ℕ) (hb : b ≤ w) (v : ℕ) : Cell w where
  bits := b
  pre := v % 2 ^ w / 2 ^ (w - b)
  bits_le := hb
  pre_lt := by
    rw [Nat.div_lt_iff_lt_mul (Nat.two_pow_pos _), ← Nat.pow_add, Nat.add_sub_cancel' hb]
    exact Nat.mod_lt _ (Nat.two_pow_pos _)

def parent (c : Cell w) : Cell w where
  bits := c.bits - 1
  pre := c.pre / 2
  bits_le := by have := c.bits_le; omega
  pre_lt := by
    have := c.pre_lt
    rcases Nat.eq_zero_or_pos c.bits with h | h
    · rw [h] at this ⊢
      omega
    · have hpow : 2 ^ (c.bits - 1) * 2 = 2 ^ c.bits := by
        rw [← Nat.pow_succ]
        congr 1
        omega
      rw [Nat.div_lt_iff_lt_mul (by decide), hpow]
      exact this

def sibling (c : Cell w) (h : 0 < c.bits) : Cell w where
  bits := c.bits
  pre := c.pre ^^^ 1
  bits_le := c.bits_le
  pre_lt := Nat.xor_lt_two_pow c.pre_lt (Nat.one_lt_two_pow (by omega))

def child (c : Cell w) (h : c.bits < w) (i : ℕ) (hi : i < 2) : Cell w where
  bits := c.bits + 1
  pre := 2 * c.pre + i
  bits_le := h
  pre_lt := by
    have := c.pre_lt
    rw [Nat.pow_succ]
    omega

@[simp] theorem bits_parent (c : Cell w) : c.parent.bits = c.bits - 1 := rfl

@[simp] theorem pre_parent (c : Cell w) : c.parent.pre = c.pre / 2 := rfl

@[simp] theorem bits_sibling (c : Cell w) (h : 0 < c.bits) : (c.sibling h).bits = c.bits := rfl

@[simp] theorem pre_sibling (c : Cell w) (h : 0 < c.bits) : (c.sibling h).pre = c.pre ^^^ 1 := rfl

theorem mem_ofWord (b : ℕ) (hb : b ≤ w) (v : ℕ) : (ofWord b hb v).Mem (v % 2 ^ w) := rfl

/-- The prefix put back in place: below `2 ^ w`. -/
theorem pre_mul_lt (c : Cell w) : c.pre * 2 ^ (w - c.bits) < 2 ^ w :=
  calc c.pre * 2 ^ (w - c.bits) < 2 ^ c.bits * 2 ^ (w - c.bits) :=
        Nat.mul_lt_mul_of_pos_right c.pre_lt (Nat.two_pow_pos _)
    _ = 2 ^ w := by rw [← Nat.pow_add, Nat.add_sub_cancel' c.bits_le]

theorem parent_ne (c : Cell w) (h : 0 < c.bits) : c.parent ≠ c := fun he => by
  have := congrArg bits he
  simp only [bits_parent] at this
  omega

theorem sibling_ne (c : Cell w) (h : 0 < c.bits) : c.sibling h ≠ c := fun he => by
  have hp := congrArg pre he
  simp only [pre_sibling] at hp
  rcases Nat.even_or_odd c.pre with he | ho
  · rw [Nat.xor_one_of_even he] at hp
    omega
  · rw [Nat.xor_one_of_odd ho] at hp
    have := Nat.odd_iff.1 ho
    omega

theorem Above.refl (c : Cell w) : c.Above c := ⟨Nat.le_refl _, by simp⟩

/-- Only the whole space holds the whole space. -/
theorem Above.eq_of_bits_eq_zero {c d : Cell w} (h : c.Above d) (hd : d.bits = 0) : c = d := by
  have hc : c.bits = 0 := by have := h.1; omega
  have hpc := c.pre_lt
  have hpd := d.pre_lt
  rw [hc] at hpc
  rw [hd] at hpd
  exact ext' (by omega) (by simp only [Nat.pow_zero] at hpc hpd; omega)

theorem Above.mem {c d : Cell w} (h : c.Above d) {v : ℕ} (hv : d.Mem v) : c.Mem v := by
  obtain ⟨hb, hp⟩ := h
  have hsplit : w - c.bits = (w - d.bits) + (d.bits - c.bits) := by
    have := d.bits_le
    omega
  unfold Mem at hv ⊢
  rw [hsplit, Nat.pow_add, ← Nat.div_div_eq_div_mul, hv, hp]

/-- Climbing one bit: a cell holds `d` when it is `d` or holds its parent. -/
theorem above_iff {c d : Cell w} (h : 0 < d.bits) : c.Above d ↔ c = d ∨ c.Above d.parent := by
  constructor
  · rintro ⟨hb, hp⟩
    by_cases hbd : c.bits = d.bits
    · left
      refine ext' hbd ?_
      rw [← hp, hbd, Nat.sub_self, Nat.pow_zero, Nat.div_one]
    · right
      refine ⟨by simp only [parent]; omega, ?_⟩
      simp only [parent]
      rw [← hp, Nat.div_div_eq_div_mul, ← Nat.pow_succ']
      congr 2
      omega
  · rintro (rfl | ⟨hb, hp⟩)
    · exact Above.refl c
    · simp only [parent] at hb hp
      refine ⟨by omega, ?_⟩
      rw [← hp, Nat.div_div_eq_div_mul, ← Nat.pow_succ']
      congr 2
      omega

theorem parent_child (c : Cell w) (h : c.bits < w) (i : ℕ) (hi : i < 2) :
    (c.child h i hi).parent = c :=
  ext' (by simp [parent, child]) (by simp only [parent, child]; omega)

theorem sibling_child_zero (c : Cell w) (h : c.bits < w) :
    (c.child h 0 (by decide)).sibling (Nat.succ_pos c.bits) = c.child h 1 (by decide) := by
  refine ext' rfl ?_
  simp only [sibling, child, Nat.add_zero]
  exact Nat.xor_one_of_even (even_two_mul _)

/-- The words of the parent are those of the cell and of its sibling. -/
theorem mem_parent_iff {c : Cell w} (h : 0 < c.bits) {v : ℕ} :
    c.parent.Mem v ↔ c.Mem v ∨ (c.sibling h).Mem v := by
  have hw : w - c.parent.bits = (w - c.bits) + 1 := by
    have := c.bits_le
    simp only [parent]
    omega
  unfold Mem
  rw [hw, Nat.pow_succ, ← Nat.div_div_eq_div_mul]
  simp only [parent, sibling]
  generalize v / 2 ^ (w - c.bits) = q
  rcases Nat.even_or_odd c.pre with he | ho
  · rw [Nat.xor_one_of_even he]
    have := Nat.even_iff.1 he
    omega
  · rw [Nat.xor_one_of_odd ho]
    have := Nat.odd_iff.1 ho
    omega

/-- A set of cells with no two siblings in it covers a cell only through one cell that holds
it: of two children each covered through a cell, one of the two cells holds their parent,
or both are the children themselves, which are siblings. The induction is on the bits left
below the cell. -/
theorem exists_above_of_covers_gap {S : Set (Cell w)}
    (hS : ∀ c ∈ S, ∀ h : 0 < c.bits, c.sibling h ∉ S) :
    ∀ (n : ℕ) (g : Cell w), w - g.bits = n → (∀ v < 2 ^ w, g.Mem v → ∃ c ∈ S, c.Mem v) →
      ∃ c ∈ S, c.Above g := by
  intro n
  induction n with
  | zero =>
    intro g hn hcov
    have hgw : g.bits = w := by have := g.bits_le; omega
    have hpre : g.pre < 2 ^ w := by
      have h := g.pre_lt
      rwa [hgw] at h
    obtain ⟨c, hc, hcv⟩ := hcov g.pre hpre (by simp [Mem, hgw])
    exact ⟨c, hc, by have := c.bits_le; omega, by rw [hgw]; exact hcv⟩
  | succ n ih =>
    intro g hn hcov
    have hlt : g.bits < w := by omega
    have hchild : ∀ (i : ℕ) (hi : i < 2), ∃ c ∈ S, c.Above (g.child hlt i hi) := by
      intro i hi
      refine ih _ (by simp only [child]; omega) fun v hv hmem => hcov v hv ?_
      have habove : g.Above (g.child hlt i hi) := by
        rw [above_iff (Nat.succ_pos _), parent_child]
        exact .inr (Above.refl g)
      exact habove.mem hmem
    obtain ⟨c₀, hc₀, h₀⟩ := hchild 0 (by decide)
    obtain ⟨c₁, hc₁, h₁⟩ := hchild 1 (by decide)
    rw [above_iff (Nat.succ_pos _), parent_child] at h₀ h₁
    rcases h₀ with rfl | h₀
    · rcases h₁ with rfl | h₁
      · have hsib : (g.child hlt 0 (by decide)).sibling (Nat.succ_pos g.bits) ∈ S := by
          rw [sibling_child_zero]
          exact hc₁
        exact absurd hsib (hS _ hc₀ _)
      · exact ⟨c₁, hc₁, h₁⟩
    · exact ⟨c₀, hc₀, h₀⟩

theorem exists_above_of_covers {S : Set (Cell w)} (hS : ∀ c ∈ S, ∀ h : 0 < c.bits, c.sibling h ∉ S)
    {g : Cell w} (hcov : ∀ v < 2 ^ w, g.Mem v → ∃ c ∈ S, c.Mem v) : ∃ c ∈ S, c.Above g :=
  exists_above_of_covers_gap hS _ g rfl hcov

end Cell

end BitPrefix
