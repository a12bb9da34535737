import Lunule.BitPrefix

/-!
Split trees over the prefix cells of `w`-bit words. A split function `S` gives each cell the
number of bits it is split by, `0` for a cell that is not split. The tree is what is reached
from the whole space: under a reached cell `c` with `S c > 0`, the cells of `S c` more bits.
Its leaves are the reached cells that are not split. When every split cell is reached and
stays within `w` bits, the leaves partition the words, and the walk for a word, which moves
from a split cell to the cell of its split that holds the word, ends at the word's leaf.

Splitting a leaf, merging the uniformly split children of a cell into it and its inverse,
undoing the split of a cell whose children are leaves, and unsplitting everything under a cell
each keep such a tree, and each is told by how the leaves change.
-/

namespace BitPrefix

namespace Cell

variable {w : ℕ}

/-! ## Cells that share words -/

/-- The whole space. -/
def root : Cell w where
  bits := 0
  pre := 0
  bits_le := Nat.zero_le w
  pre_lt := Nat.one_pos

theorem lt_of_mem {c : Cell w} {v : ℕ} (h : c.Mem v) : v < 2 ^ w := by
  have hpre := c.pre_lt
  unfold Mem at h
  rw [← h, Nat.div_lt_iff_lt_mul (Nat.two_pow_pos _), ← Nat.pow_add,
    Nat.add_sub_cancel' c.bits_le] at hpre
  exact hpre

theorem mem_root {v : ℕ} : (root : Cell w).Mem v ↔ v < 2 ^ w := by
  simp only [Mem, root, Nat.sub_zero]
  exact Nat.div_eq_zero_iff_lt (Nat.two_pow_pos _)

/-- The first word of a cell. -/
theorem mem_base (c : Cell w) : c.Mem (c.pre * 2 ^ (w - c.bits)) :=
  Nat.mul_div_cancel _ (Nat.two_pow_pos _)

theorem eq_of_mem_of_bits_eq {c d : Cell w} {v : ℕ} (hc : c.Mem v) (hd : d.Mem v)
    (h : c.bits = d.bits) : c = d :=
  ext' h (by unfold Mem at hc hd; rw [← hc, ← hd, h])

theorem mem_ofWord_of_lt (b : ℕ) (hb : b ≤ w) {v : ℕ} (hv : v < 2 ^ w) : (ofWord b hb v).Mem v := by
  have h := mem_ofWord b hb v
  rwa [Nat.mod_eq_of_lt hv] at h

theorem ofWord_eq {c : Cell w} {v : ℕ} (hc : c.Mem v) : ofWord c.bits c.bits_le v = c :=
  eq_of_mem_of_bits_eq (mem_ofWord_of_lt _ _ (lt_of_mem hc)) hc rfl

/-- A cell holds every cell of as many bits or more that shares a word with it. -/
theorem above_of_mem {c d : Cell w} {v : ℕ} (hc : c.Mem v) (hd : d.Mem v) (h : c.bits ≤ d.bits) :
    c.Above d := by
  refine ⟨h, ?_⟩
  unfold Mem at hc hd
  have hw : w - d.bits + (d.bits - c.bits) = w - c.bits := by
    have := d.bits_le
    omega
  rw [← hd, Nat.div_div_eq_div_mul, ← Nat.pow_add, hw, hc]

theorem above_or_above {c d : Cell w} {v : ℕ} (hc : c.Mem v) (hd : d.Mem v) :
    c.Above d ∨ d.Above c :=
  (le_total c.bits d.bits).imp (above_of_mem hc hd) (above_of_mem hd hc)

theorem Above.trans {c d e : Cell w} (hcd : c.Above d) (hde : d.Above e) : c.Above e :=
  above_of_mem (hcd.mem (hde.mem (mem_base e))) (mem_base e) (hcd.1.trans hde.1)

theorem Above.antisymm {c d : Cell w} (hcd : c.Above d) (hdc : d.Above c) : c = d :=
  eq_of_mem_of_bits_eq (hcd.mem (mem_base d)) (mem_base d) (le_antisymm hcd.1 hdc.1)

theorem Above.eq_of_bits_le {c d : Cell w} (h : c.Above d) (hb : d.bits ≤ c.bits) : c = d :=
  eq_of_mem_of_bits_eq (h.mem (mem_base d)) (mem_base d) (le_antisymm h.1 hb)

theorem ofWord_above {c : Cell w} {v : ℕ} (hc : c.Mem v) (b : ℕ) (hb : b ≤ w) (hcb : c.bits ≤ b) :
    c.Above (ofWord b hb v) :=
  above_of_mem hc (mem_ofWord_of_lt b hb (lt_of_mem hc)) hcb

/-! ## The cells under a cell -/

/-- The cell of `nb` more bits under `c` whose last `nb` prefix bits read `i`. -/
def extend (c : Cell w) (nb i : ℕ) (h : c.bits + nb ≤ w) (hi : i < 2 ^ nb) : Cell w where
  bits := c.bits + nb
  pre := c.pre * 2 ^ nb + i
  bits_le := h
  pre_lt := by
    have hpre : c.pre + 1 ≤ 2 ^ c.bits := c.pre_lt
    calc c.pre * 2 ^ nb + i < (c.pre + 1) * 2 ^ nb := by rw [Nat.succ_mul]; omega
      _ ≤ 2 ^ c.bits * 2 ^ nb := Nat.mul_le_mul_right _ hpre
      _ = 2 ^ (c.bits + nb) := (Nat.pow_add ..).symm

section Extend

variable {c : Cell w} {nb : ℕ} (h : c.bits + nb ≤ w)

@[simp] theorem bits_extend (i : ℕ) (hi : i < 2 ^ nb) : (c.extend nb i h hi).bits = c.bits + nb :=
  rfl

theorem above_extend (i : ℕ) (hi : i < 2 ^ nb) : c.Above (c.extend nb i h hi) := by
  refine ⟨Nat.le_add_right _ _, ?_⟩
  simp only [extend, Nat.add_sub_cancel_left]
  rw [Nat.mul_comm, Nat.mul_add_div (Nat.two_pow_pos _), Nat.div_eq_of_lt hi, Nat.add_zero]

/-- The index, among the cells of `nb` more bits under `c`, of the one that holds `v`. -/
def index (c : Cell w) (nb v : ℕ) : ℕ := v / 2 ^ (w - (c.bits + nb)) % 2 ^ nb

theorem index_lt (c : Cell w) (nb v : ℕ) : c.index nb v < 2 ^ nb := Nat.mod_lt _ (Nat.two_pow_pos _)

/-- The cell of `nb` more bits under `c` that holds a word of `c`. -/
theorem ofWord_eq_extend {v : ℕ} (hv : c.Mem v) :
    ofWord (c.bits + nb) h v = c.extend nb (c.index nb v) h (c.index_lt nb v) := by
  refine ext' rfl ?_
  have hw : w - (c.bits + nb) + nb = w - c.bits := by omega
  have hdiv : v / 2 ^ (w - (c.bits + nb)) / 2 ^ nb = c.pre := by
    rw [Nat.div_div_eq_div_mul, ← Nat.pow_add, hw]
    exact hv
  show v % 2 ^ w / 2 ^ (w - (c.bits + nb)) = c.pre * 2 ^ nb + c.index nb v
  rw [Nat.mod_eq_of_lt (lt_of_mem hv), ← hdiv, index, Nat.div_add_mod']

theorem extend_injective {i j : ℕ} (hi : i < 2 ^ nb) (hj : j < 2 ^ nb)
    (he : c.extend nb i h hi = c.extend nb j h hj) : i = j := by
  have hp := congrArg pre he
  simp only [extend] at hp
  omega

theorem mem_extend_iff (i : ℕ) (hi : i < 2 ^ nb) {v : ℕ} :
    (c.extend nb i h hi).Mem v ↔ c.Mem v ∧ c.index nb v = i := by
  constructor
  · intro hv
    have hc := (above_extend h i hi).mem hv
    refine ⟨hc, extend_injective h (c.index_lt nb v) hi ?_⟩
    rw [← ofWord_eq_extend h hc]
    exact ofWord_eq hv
  · rintro ⟨hc, rfl⟩
    rw [← ofWord_eq_extend h hc]
    exact mem_ofWord_of_lt _ _ (lt_of_mem hc)

end Extend

@[simp] theorem bits_ofWord (b : ℕ) (hb : b ≤ w) (v : ℕ) : (ofWord b hb v).bits = b := rfl

theorem ofWord_congr {b b' : ℕ} (hb : b ≤ w) (hb' : b' ≤ w) (h : b = b') (v : ℕ) :
    ofWord b hb v = ofWord b' hb' v := by
  subst h
  rfl

/-! ## Split trees -/

section Tree

variable (S : Cell w → ℕ)

/-- The cells the tree reaches from `s`: `s`, and under a reached split cell the cells of its
split. -/
inductive Reach (s : Cell w) : Cell w → Prop
  | refl : Reach s s
  | step {c : Cell w} {v : ℕ} (h : c.bits + S c ≤ w) : Reach s c → 0 < S c → c.Mem v →
      Reach s (ofWord (c.bits + S c) h v)

/-- The walk for the word `v` from `c` ends at `l`: it stops at a cell that is not split, and
moves from a split cell to the cell of its split that holds `v`. -/
inductive Walk (v : ℕ) : Cell w → Cell w → Prop
  | stop {c : Cell w} : S c = 0 → Walk v c c
  | step {c l : Cell w} (h : c.bits + S c ≤ w) : 0 < S c →
      Walk v (ofWord (c.bits + S c) h v) l → Walk v c l

/-- Every split cell is reached, and its split stays within `w` bits. -/
structure IsTree : Prop where
  reach : ∀ c, 0 < S c → Reach S root c
  bound : ∀ c, 0 < S c → c.bits + S c ≤ w

/-- A reached cell that is not split. -/
def IsLeaf (c : Cell w) : Prop := Reach S root c ∧ S c = 0

variable {S}

namespace Reach

theorem above {s c : Cell w} (h : Reach S s c) : s.Above c := by
  induction h with
  | refl => exact Above.refl s
  | step h _ _ hv ih => exact ih.trans (ofWord_above hv _ h (Nat.le_add_right _ _))

theorem trans {s c d : Cell w} (hsc : Reach S s c) (hcd : Reach S c d) : Reach S s d := by
  induction hcd with
  | refl => exact hsc
  | step h _ hpos hv ih => exact .step h ih hpos hv

/-- Below `s` the tree reaches only through the split of `s`. -/
theorem eq_or_le {s c : Cell w} (h : Reach S s c) : c = s ∨ 0 < S s ∧ s.bits + S s ≤ c.bits := by
  induction h with
  | refl => exact .inl rfl
  | step h _ hpos _ ih =>
    right
    rcases ih with rfl | ⟨hs, hle⟩
    · exact ⟨hpos, le_refl _⟩
    · exact ⟨hs, hle.trans (by simp only [bits_ofWord]; omega)⟩

/-- No reached cell lies strictly between a reached split cell `e` and its split, when the cells
reached above `e` reach `e`. The induction is on how the cell is reached. -/
theorem not_between {e : Cell w} (hup : ∀ {c}, Reach S root c → c.Above e → Reach S c e)
    {c : Cell w} (hc : Reach S root c) {u : ℕ} (hcu : c.Mem u) (heu : e.Mem u) :
    ¬ (e.bits < c.bits ∧ c.bits < e.bits + S e) := by
  induction hc with
  | refl => simp [root]
  | @step f v hf hrf hpos hv ih =>
    rintro ⟨h1, h2⟩
    simp only [bits_ofWord] at h1 h2
    have hfu : f.Mem u := (ofWord_above hv _ hf (Nat.le_add_right _ _)).mem hcu
    by_cases hfe : f.bits ≤ e.bits
    · rcases (hup hrf (above_of_mem hfu heu hfe)).eq_or_le with rfl | ⟨-, hle⟩
      · omega
      · omega
    · by_cases hfe' : f.bits < e.bits + S e
      · exact ih hfu ⟨by omega, hfe'⟩
      · omega

/-- Of two reached cells, the one above reaches the other. The induction is on how the lower
cell is reached: a cell above it is above its parent in the tree, or lies between the parent
and its split, which `not_between` rules out. -/
theorem of_above {c d : Cell w} (hc : Reach S root c) (hd : Reach S root d) (h : c.Above d) :
    Reach S c d := by
  induction hd generalizing c with
  | refl =>
    obtain rfl := h.eq_of_bits_le (Nat.zero_le _)
    exact .refl
  | @step e v he hre hpos hv ih =>
    have hed : e.Above (ofWord (e.bits + S e) he v) := ofWord_above hv _ he (Nat.le_add_right _ _)
    have hdu := mem_base (ofWord (e.bits + S e) he v)
    rcases above_or_above (h.mem hdu) (hed.mem hdu) with hce | hec
    · exact .step he (ih hc hce) hpos hv
    · by_cases hcd : (ofWord (e.bits + S e) he v).bits ≤ c.bits
      · rw [h.eq_of_bits_le hcd]
        exact .refl
      · by_cases hce : c.bits = e.bits
        · rw [(hec.eq_of_bits_le (le_of_eq hce)).symm]
          exact .step he .refl hpos hv
        · simp only [bits_ofWord] at hcd
          exact absurd ⟨lt_of_le_of_ne hec.1 (Ne.symm hce), by omega⟩
            (not_between (fun hr ha => ih hr ha) hc (h.mem hdu) (hed.mem hdu))

end Reach

/-- A reached cell under a leaf is the leaf. -/
theorem IsLeaf.eq_of_above {x d : Cell w} (hx : IsLeaf S x) (hd : Reach S root d) (h : x.Above d) :
    d = x := by
  rcases (Reach.of_above hx.1 hd h).eq_or_le with hdx | ⟨hpos, -⟩
  · exact hdx
  · rw [hx.2] at hpos
    exact absurd hpos (lt_irrefl 0)

/-- Two leaves that share a word are the same. -/
theorem IsLeaf.eq {l l' : Cell w} (hl : IsLeaf S l) (hl' : IsLeaf S l') {v : ℕ} (hv : l.Mem v)
    (hv' : l'.Mem v) : l = l' :=
  (above_or_above hv hv').elim (fun h => (hl.eq_of_above hl'.1 h).symm)
    (fun h => hl'.eq_of_above hl.1 h)

/-- Under a leaf of a tree nothing is split. -/
theorem IsTree.eq_zero_of_above {x c : Cell w} (hT : IsTree S) (hx : IsLeaf S x) (h : x.Above c) :
    S c = 0 := by
  by_contra hc
  have hcx := hx.eq_of_above (hT.reach c (Nat.pos_of_ne_zero hc)) h
  rw [hcx, hx.2] at hc
  exact hc rfl

/-- In a tree, no cell strictly between a reached cell and the cells of its split is split. -/
theorem IsTree.eq_zero_of_between (hT : IsTree S) {s c : Cell w} (hs : Reach S root s)
    (hsc : s.Above c) (h1 : s.bits < c.bits) (h2 : c.bits < s.bits + S s) : S c = 0 := by
  by_contra hne
  rcases (Reach.of_above hs (hT.reach c (Nat.pos_of_ne_zero hne)) hsc).eq_or_le with he | ⟨-, hle⟩
  · rw [he] at h1
    exact lt_irrefl _ h1
  · omega

namespace Walk

variable {v : ℕ}

theorem reach {c l : Cell w} (h : Walk S v c l) (hc : c.Mem v) : Reach S c l ∧ S l = 0 ∧ l.Mem v := by
  induction h with
  | stop h0 => exact ⟨.refl, h0, hc⟩
  | step h hpos _ ih =>
    obtain ⟨hr, h0, hl⟩ := ih (mem_ofWord_of_lt _ h (lt_of_mem hc))
    exact ⟨(Reach.step h .refl hpos hc).trans hr, h0, hl⟩

theorem unique {c l l' : Cell w} (h : Walk S v c l) (h' : Walk S v c l') : l = l' := by
  induction h with
  | stop h0 =>
    cases h' with
    | stop _ => rfl
    | step _ hpos _ => omega
  | step _ hpos _ ih =>
    cases h' with
    | stop h0 => omega
    | step _ _ hw => exact ih hw

end Walk

/-- The walk from a cell above a reached cell that holds the word goes through it. -/
theorem Reach.walk {s c l : Cell w} {v : ℕ} (hr : Reach S s c) :
    c.Mem v → Walk S v c l → Walk S v s l := by
  induction hr with
  | refl => exact fun _ hw => hw
  | @step d u h _ hpos hu ih =>
    intro hv hw
    have hd : d.Mem v := (ofWord_above hu _ h (Nat.le_add_right _ _)).mem hv
    have he : ofWord (d.bits + S d) h v = ofWord (d.bits + S d) h u := ofWord_eq hv
    refine ih hd (.step h hpos ?_)
    rw [he]
    exact hw

/-- In a tree, the walk for a word of a cell ends. The induction is on the bits left below the
cell. -/
theorem IsTree.exists_walk (hT : IsTree S) {v : ℕ} :
    ∀ (n : ℕ) (c : Cell w), w - c.bits < n → c.Mem v → ∃ l, Walk S v c l := by
  intro n
  induction n with
  | zero => exact fun _ h => absurd h (Nat.not_lt_zero _)
  | succ n ih =>
    intro c hn hc
    rcases Nat.eq_zero_or_pos (S c) with h0 | hpos
    · exact ⟨c, .stop h0⟩
    · have hb := hT.bound c hpos
      obtain ⟨l, hl⟩ := ih (ofWord (c.bits + S c) hb v) (by simp only [bits_ofWord]; omega)
        (mem_ofWord_of_lt _ hb (lt_of_mem hc))
      exact ⟨l, .step hb hpos hl⟩

/-- The walk from the whole space ends at the leaf that holds the word. -/
theorem walk_root_iff {v : ℕ} (hv : v < 2 ^ w) {l : Cell w} :
    Walk S v root l ↔ IsLeaf S l ∧ l.Mem v := by
  constructor
  · intro hw
    obtain ⟨hr, h0, hl⟩ := hw.reach (mem_root.2 hv)
    exact ⟨⟨hr, h0⟩, hl⟩
  · rintro ⟨hl, hlv⟩
    exact hl.1.walk hlv (.stop hl.2)

/-- The leaves of a tree partition the words. -/
theorem IsTree.existsUnique_isLeaf (hT : IsTree S) {v : ℕ} (hv : v < 2 ^ w) :
    ∃! l, IsLeaf S l ∧ l.Mem v := by
  obtain ⟨l, hl⟩ := hT.exists_walk (w + 1) root (by simp [root]) (mem_root.2 hv)
  obtain ⟨hleaf, hlv⟩ := (walk_root_iff hv).1 hl
  exact ⟨l, ⟨hleaf, hlv⟩, fun l' hl' => hl'.1.eq hleaf hl'.2 hlv⟩

theorem Reach.step_eq {S : Cell w → ℕ} {s c : Cell w} {n : ℕ} (hn : S c = n) (h : c.bits + n ≤ w)
    (hr : Reach S s c) (hpos : 0 < n) {v : ℕ} (hv : c.Mem v) :
    Reach S s (ofWord (c.bits + n) h v) := by
  subst hn
  exact .step h hr hpos hv

/-- A cell of the split of a reached cell is reached. -/
theorem Reach.step_above {S : Cell w → ℕ} {s c d : Cell w} (hr : Reach S s c) (hpos : 0 < S c)
    (hcd : c.Above d) (hd : d.bits = c.bits + S c) : Reach S s d := by
  have hb : c.bits + S c ≤ w := hd ▸ d.bits_le
  have he : ofWord (c.bits + S c) hb (d.pre * 2 ^ (w - d.bits)) = d :=
    (ofWord_congr _ _ hd.symm _).trans (ofWord_eq (mem_base d))
  exact he ▸ hr.step hb hpos (hcd.mem (mem_base d))

/-- What is reached from `s` is reached in a tree that keeps the split of each cell between. -/
theorem Reach.transfer {S S' : Cell w → ℕ} {s c : Cell w} (h : Reach S s c)
    (hS : ∀ d, s.Above d → d.Above c → d ≠ c → S' d = S d) : Reach S' s c := by
  induction h with
  | refl => exact .refl
  | @step d v hd hr hpos hv ih =>
    have hdc : d.Above (ofWord (d.bits + S d) hd v) := ofWord_above hv _ hd (Nat.le_add_right _ _)
    have hne : d ≠ ofWord (d.bits + S d) hd v := fun he => by
      have hb := congrArg bits he
      simp only [bits_ofWord] at hb
      omega
    refine (ih fun d' hs hd' hne' => hS d' hs (hd'.trans hdc) ?_).step_eq (hS d hr.above hdc hne) hd
      hpos hv
    rintro rfl
    exact hne (hd'.antisymm hdc).symm

/-- Two split functions that agree under `s` reach the same cells from `s`. -/
theorem Reach.congr_iff {S S' : Cell w → ℕ} {s c : Cell w} (h : ∀ d, s.Above d → S d = S' d) :
    Reach S s c ↔ Reach S' s c :=
  ⟨fun hr => hr.transfer fun d hs _ _ => (h d hs).symm, fun hr => hr.transfer fun d hs _ _ => h d hs⟩

/-! ## Changing the tree -/

section Change

variable {S S' : Cell w → ℕ}

/-- `S'` is `S` with the split of `x` set to `b`. -/
structure SplitAt (S S' : Cell w → ℕ) (x : Cell w) (b : ℕ) : Prop where
  self : S' x = b
  other : ∀ c, c ≠ x → S' c = S c

theorem SplitAt.swap {x : Cell w} {b : ℕ} (hs : SplitAt S S' x b) : SplitAt S' S x (S x) :=
  ⟨rfl, fun c hc => (hs.other c hc).symm⟩

theorem SplitAt.trans {S'' : Cell w → ℕ} {x : Cell w} {b b' : ℕ} (hs : SplitAt S S' x b)
    (hs' : SplitAt S' S'' x b') : SplitAt S S'' x b' :=
  ⟨hs'.self, fun c hc => (hs'.other c hc).trans (hs.other c hc)⟩

/-- Changing the split of `x` to one within `w` bits keeps every split within `w` bits. -/
theorem SplitAt.bound {x : Cell w} {b : ℕ} (hs : SplitAt S S' x b)
    (hB : ∀ c, 0 < S c → c.bits + S c ≤ w) (hb : x.bits + b ≤ w) :
    ∀ c, 0 < S' c → c.bits + S' c ≤ w := fun c hc => by
  by_cases hcx : c = x
  · rw [hcx, hs.self]
    exact hb
  · rw [hs.other c hcx] at hc ⊢
    exact hB c hc

section Split

variable {x : Cell w} {b : ℕ} (hs : SplitAt S S' x b)
include hs

/-- Splitting a cell that is not split keeps what is reached. -/
theorem Reach.of_splitAt (hx : S x = 0) {s c : Cell w} (h : Reach S s c) : Reach S' s c := by
  induction h with
  | refl => exact .refl
  | @step d v hd _ hpos hv ih =>
    have hne : d ≠ x := fun he => by
      rw [he, hx] at hpos
      exact lt_irrefl 0 hpos
    exact ih.step_eq (hs.other d hne) hd hpos hv

/-- What is reached after changing the split of `x`, away from `x`, was reached before. -/
theorem Reach.of_splitAt_not_above {s c : Cell w} (h : Reach S' s c) (hxc : ¬ x.Above c) :
    Reach S s c := by
  induction h with
  | refl => exact .refl
  | @step d v hd _ hpos hv ih =>
    have hxd : ¬ x.Above d := fun hxd =>
      hxc (hxd.trans (ofWord_above hv _ hd (Nat.le_add_right _ _)))
    have hne : d ≠ x := fun he => hxd (he ▸ Above.refl d)
    exact (ih hxd).step_eq (hs.other d hne).symm hd hpos hv

variable (hT : IsTree S) (hx : IsLeaf S x) (hb : x.bits + b ≤ w)
include hT hx hb

/-- Splitting a leaf within `w` bits keeps a tree. -/
theorem IsTree.splitAt : IsTree S' where
  reach c hc := by
    by_cases hcx : c = x
    · rw [hcx]
      exact hx.1.of_splitAt hs hx.2
    · rw [hs.other c hcx] at hc
      exact (hT.reach c hc).of_splitAt hs hx.2
  bound c hc := by
    by_cases hcx : c = x
    · rw [hcx, hs.self]
      exact hb
    · rw [hs.other c hcx] at hc ⊢
      exact hT.bound c hc

/-- Splitting a leaf by `b > 0` bits replaces it by the cells of its split. -/
theorem isLeaf_splitAt_iff (hpos : 0 < b) {l : Cell w} :
    IsLeaf S' l ↔ IsLeaf S l ∧ l ≠ x ∨ x.Above l ∧ l.bits = x.bits + b := by
  have hx' : Reach S' root x := hx.1.of_splitAt hs hx.2
  have hchild : ∀ {l}, x.Above l → l.bits = x.bits + b → IsLeaf S' l := by
    intro l hxl hbits
    have hl : ofWord (x.bits + b) hb (l.pre * 2 ^ (w - l.bits)) = l :=
      (ofWord_congr _ _ hbits.symm _).trans (ofWord_eq (mem_base l))
    have hlx : l ≠ x := fun he => by rw [he] at hbits; omega
    refine ⟨hl ▸ hx'.step_eq hs.self hb hpos (hxl.mem (mem_base l)), ?_⟩
    rw [hs.other l hlx]
    exact hT.eq_zero_of_above hx hxl
  constructor
  · rintro ⟨hr, h0⟩
    have hlx : l ≠ x := fun he => by rw [he, hs.self] at h0; omega
    by_cases hxl : x.Above l
    · right
      refine ⟨hxl, le_antisymm ?_ ?_⟩
      · have hu := hxl.mem (mem_base l)
        have hcl : (ofWord (x.bits + b) hb (l.pre * 2 ^ (w - l.bits))).Above l := by
          refine above_of_mem (mem_ofWord_of_lt _ hb (lt_of_mem (mem_base l))) (mem_base l) ?_
          rcases (Reach.of_above hx' hr hxl).eq_or_le with he | ⟨-, hle⟩
          · exact absurd he hlx
          · rw [hs.self] at hle
            exact hle
        have hcl' := (hchild (ofWord_above hu _ hb (Nat.le_add_right _ _)) rfl).eq_of_above hr hcl
        rw [hcl']
        rfl
      · rcases (Reach.of_above hx' hr hxl).eq_or_le with he | ⟨-, hle⟩
        · exact absurd he hlx
        · rw [hs.self] at hle
          exact hle
    · left
      refine ⟨⟨hr.of_splitAt_not_above hs hxl, ?_⟩, hlx⟩
      rw [← hs.other l hlx]
      exact h0
  · rintro (⟨⟨hr, h0⟩, hlx⟩ | ⟨hxl, hbits⟩)
    · refine ⟨hr.of_splitAt hs hx.2, ?_⟩
      rw [hs.other l hlx]
      exact h0
    · exact hchild hxl hbits

end Split

section Merge

variable {x : Cell w} (hs : SplitAt S S' x 0) (hT : IsTree S) (hx : Reach S root x) (hpos : 0 < S x)
  (hleaves : ∀ c, x.Above c → c.bits = x.bits + S x → S c = 0)
include hs hT hx hpos hleaves

omit hs in
/-- Under a split cell whose split cells are leaves, nothing else is split. -/
theorem not_above_of_pos {c : Cell w} (hc : 0 < S c) (hcx : c ≠ x) : ¬ x.Above c := by
  intro hxc
  have hr := hT.reach c hc
  have hu := hxc.mem (mem_base c)
  have hb := hT.bound x hpos
  rcases (Reach.of_above hx hr hxc).eq_or_le with he | ⟨-, hle⟩
  · exact hcx he
  · have hleaf : IsLeaf S (ofWord (x.bits + S x) hb (c.pre * 2 ^ (w - c.bits))) :=
      ⟨hx.step hb hpos hu, hleaves _ (ofWord_above hu _ hb (Nat.le_add_right _ _)) rfl⟩
    have hcl := hleaf.eq_of_above hr
      (above_of_mem (mem_ofWord_of_lt _ hb (lt_of_mem (mem_base c))) (mem_base c) hle)
    rw [hcl, hleaf.2] at hc
    exact lt_irrefl 0 hc

/-- Undoing the split of a cell whose split cells are leaves keeps a tree. -/
theorem IsTree.mergeAt : IsTree S' where
  reach c hc := by
    have hcx : c ≠ x := fun he => by rw [he, hs.self] at hc; exact lt_irrefl 0 hc
    rw [hs.other c hcx] at hc
    exact (hT.reach c hc).of_splitAt_not_above hs.swap
      (not_above_of_pos hT hx hpos hleaves hc hcx)
  bound c hc := by
    have hcx : c ≠ x := fun he => by rw [he, hs.self] at hc; exact lt_irrefl 0 hc
    rw [hs.other c hcx] at hc ⊢
    exact hT.bound c hc

omit hT hpos hleaves in
theorem isLeaf_mergeAt_self : IsLeaf S' x :=
  ⟨hx.transfer fun d _ _ hdx => hs.other d hdx, hs.self⟩

/-- Undoing the split of a cell whose split cells are leaves makes it the leaf of what was
under it. -/
theorem isLeaf_mergeAt_iff {l : Cell w} : IsLeaf S' l ↔ IsLeaf S l ∧ ¬ x.Above l ∨ l = x := by
  have hT' := hT.mergeAt hs hx hpos hleaves
  have hx' := isLeaf_mergeAt_self hs hx
  have hiff := isLeaf_splitAt_iff hs.swap hT' hx' (hT.bound x hpos) hpos (l := l)
  constructor
  · intro hl
    by_cases hlx : l = x
    · exact .inr hlx
    · refine .inl ⟨hiff.2 (.inl ⟨hl, hlx⟩), fun hxl => hlx (hx'.eq_of_above hl.1 hxl)⟩
  · rintro (⟨hl, hxl⟩ | rfl)
    · rcases hiff.1 hl with ⟨hl', -⟩ | ⟨hxl', -⟩
      · exact hl'
      · exact absurd hxl' hxl
    · exact hx'

end Merge

/-- `S''` is `S` with the cells of the split of `p` merged into it: `p` is split by their own
split, `cb` bits, more, and they are split no more. -/
structure AssimilatesAt (S S'' : Cell w → ℕ) (p : Cell w) (cb : ℕ) : Prop where
  self : S'' p = S p + cb
  child : ∀ c, p.Above c → c.bits = p.bits + S p → S'' c = 0
  other : ∀ c, c ≠ p → ¬ (p.Above c ∧ c.bits = p.bits + S p) → S'' c = S c

section Assimilate

variable {S'' : Cell w → ℕ} {p : Cell w} {cb : ℕ}

/-- The split of `p` merged with those of its children stays within `w` bits. -/
theorem assimilate_bound (hB : ∀ c, 0 < S c → c.bits + S c ≤ w) (hpos : 0 < S p) (hcb : 0 < cb)
    (hch : ∀ c, p.Above c → c.bits = p.bits + S p → S c = cb) : p.bits + (S p + cb) ≤ w := by
  have hb := hB p hpos
  have hS := hch (ofWord (p.bits + S p) hb (p.pre * 2 ^ (w - p.bits)))
    (ofWord_above (mem_base p) _ _ (Nat.le_add_right _ _)) rfl
  have hc := hB _ (hS ▸ hcb)
  rw [hS] at hc
  simp only [bits_ofWord] at hc
  omega

section Reach

variable (ha : AssimilatesAt S S'' p cb) (hB : ∀ c, 0 < S c → c.bits + S c ≤ w)
  (hp : Reach S root p) (hpos : 0 < S p) (hcb : 0 < cb)
  (hch : ∀ c, p.Above c → c.bits = p.bits + S p → S c = cb)
include ha hB hp hpos hcb hch

omit ha in
/-- The cells of the split of `p`, reached through `p`, reach the cells of `cb` more bits. -/
theorem reach_grandchild {v : ℕ} (hv : p.Mem v) :
    Reach S root (ofWord (p.bits + (S p + cb)) (assimilate_bound hB hpos hcb hch) v) := by
  have hb := hB p hpos
  have hc := hp.step hb hpos hv
  have hS := hch _ (ofWord_above hv _ hb (Nat.le_add_right _ _)) rfl
  have hcb' : (ofWord (p.bits + S p) hb v).bits + cb ≤ w := by
    simp only [bits_ofWord]
    have := assimilate_bound hB hpos hcb hch
    omega
  have hg := hc.step_eq hS hcb' hcb (mem_ofWord_of_lt _ hb (lt_of_mem hv))
  rwa [ofWord_congr _ (assimilate_bound hB hpos hcb hch) (by simp only [bits_ofWord]; omega)] at hg

/-- What the tree reached, other than the cells of the split of `p`, stays reached. -/
theorem AssimilatesAt.reach_of {c : Cell w} (hc : Reach S root c)
    (hnc : ¬ (p.Above c ∧ c.bits = p.bits + S p)) : Reach S'' root c := by
  have hnp : ∀ d, p.Above d → d ≠ p → ¬ (p.Above d ∧ d.bits = p.bits + S p) → S'' d = S d :=
    fun d _ hdp hnd => ha.other d hdp hnd
  have hpp : Reach S'' root p := hp.transfer fun d _ hdp hne =>
    ha.other d hne fun ⟨hpd, _⟩ => hne (hdp.antisymm hpd)
  by_cases hpc : p.Above c
  · by_cases hcp : c = p
    · rw [hcp]
      exact hpp
    rcases (Reach.of_above hp hc hpc).eq_or_le with he | ⟨-, hle⟩
    · exact absurd he hcp
    have hlt : p.bits + S p < c.bits := lt_of_le_of_ne hle fun he => hnc ⟨hpc, he.symm⟩
    have hu := hpc.mem (mem_base c)
    have hb2 := assimilate_bound hB hpos hcb hch
    have hgr := reach_grandchild hB hp hpos hcb hch hu
    have hgc : (ofWord (p.bits + (S p + cb)) hb2 (c.pre * 2 ^ (w - c.bits))).Above c := by
      have hb := hB p hpos
      have hch' := hp.step hb hpos hu
      have hS := hch _ (ofWord_above hu _ hb (Nat.le_add_right _ _)) rfl
      rcases (Reach.of_above hch' hc (above_of_mem (mem_ofWord_of_lt _ hb (lt_of_mem hu))
        (mem_base c) (by simp only [bits_ofWord]; omega))).eq_or_le with he | ⟨-, hle'⟩
      · exact absurd ⟨hpc, by rw [he]; rfl⟩ hnc
      · refine above_of_mem (mem_ofWord_of_lt _ hb2 (lt_of_mem hu)) (mem_base c) ?_
        simp only [bits_ofWord, hS] at hle' ⊢
        omega
    have hpg := (hpp.step_eq ha.self hb2 (by omega) hu)
    refine hpg.trans ((Reach.of_above hgr hc hgc).transfer fun d hgd hdc hne => ?_)
    have hdb := hgd.1
    simp only [bits_ofWord] at hdb
    refine ha.other d (fun he => by rw [he] at hdb; omega) fun ⟨_, he⟩ => by omega
  · exact hc.transfer fun d _ hdc hne =>
      ha.other d (fun he => hpc (he ▸ hdc)) fun ⟨hpd, _⟩ => hpc (hpd.trans hdc)

/-- What is reached after the merge was reached before, and is not a cell of the split of `p`. -/
theorem AssimilatesAt.reach_to {c : Cell w} (hc : Reach S'' root c) :
    Reach S root c ∧ ¬ (p.Above c ∧ c.bits = p.bits + S p) := by
  induction hc with
  | refl =>
    refine ⟨.refl, fun ⟨hpr, hb⟩ => ?_⟩
    have hp0 : p.bits = 0 := by rw [hpr.eq_of_bits_le (Nat.zero_le _)]; rfl
    have hr0 : (root : Cell w).bits = 0 := rfl
    omega
  | @step d v hd _ hdpos hv ih =>
    obtain ⟨hdr, hnd⟩ := ih
    by_cases hdp : d = p
    · subst hdp
      have hb2 := assimilate_bound hB hpos hcb hch
      have he : ofWord (d.bits + S'' d) hd v = ofWord (d.bits + (S d + cb)) hb2 v :=
        ofWord_congr _ _ (by rw [ha.self]) v
      rw [he]
      refine ⟨reach_grandchild hB hp hpos hcb hch hv, fun ⟨_, hbits⟩ => ?_⟩
      simp only [bits_ofWord] at hbits
      omega
    · have hsame := ha.other d hdp hnd
      refine ⟨hdr.step_eq hsame.symm hd hdpos hv, fun ⟨hpc, hbits⟩ => ?_⟩
      simp only [bits_ofWord] at hbits
      have hdc := ofWord_above hv _ hd (Nat.le_add_right _ _)
      rcases above_or_above (hdc.mem (mem_base (ofWord (d.bits + S'' d) hd v)))
        (hpc.mem (mem_base (ofWord (d.bits + S'' d) hd v))) with hdp' | hpd
      · rcases (Reach.of_above hdr hp hdp').eq_or_le with he | ⟨-, hle⟩
        · exact hdp he.symm
        · rw [hsame] at hbits
          omega
      · rcases (Reach.of_above hp hdr hpd).eq_or_le with he | ⟨-, hle⟩
        · exact hdp he
        · rw [hsame] at hbits
          omega

end Reach

variable (ha : AssimilatesAt S S'' p cb) (hT : IsTree S) (hp : Reach S root p) (hpos : 0 < S p)
  (hcb : 0 < cb) (hch : ∀ c, p.Above c → c.bits = p.bits + S p → S c = cb)
include ha hT hp hpos hcb hch

/-- Merging uniformly split children into their parent keeps a tree. -/
theorem IsTree.assimilateAt : IsTree S'' where
  reach c hc := by
    by_cases hcp : c = p
    · rw [hcp]
      exact ha.reach_of hT.bound hp hpos hcb hch hp fun ⟨_, hb⟩ => by omega
    by_cases hnc : p.Above c ∧ c.bits = p.bits + S p
    · rw [ha.child c hnc.1 hnc.2] at hc
      exact absurd hc (lt_irrefl 0)
    · rw [ha.other c hcp hnc] at hc
      exact ha.reach_of hT.bound hp hpos hcb hch (hT.reach c hc) hnc
  bound c hc := by
    by_cases hcp : c = p
    · rw [hcp, ha.self]
      exact assimilate_bound hT.bound hpos hcb hch
    by_cases hnc : p.Above c ∧ c.bits = p.bits + S p
    · rw [ha.child c hnc.1 hnc.2] at hc
      exact absurd hc (lt_irrefl 0)
    · rw [ha.other c hcp hnc] at hc ⊢
      exact hT.bound c hc

/-- Merging uniformly split children into their parent keeps the leaves. -/
theorem isLeaf_assimilateAt_iff {l : Cell w} : IsLeaf S'' l ↔ IsLeaf S l := by
  constructor
  · rintro ⟨hr, h0⟩
    obtain ⟨hr', hnc⟩ := ha.reach_to hT.bound hp hpos hcb hch hr
    have hlp : l ≠ p := fun he => by rw [he, ha.self] at h0; omega
    exact ⟨hr', by rw [← ha.other l hlp hnc]; exact h0⟩
  · rintro ⟨hr, h0⟩
    have hnc : ¬ (p.Above l ∧ l.bits = p.bits + S p) := fun ⟨hpl, hb⟩ => by
      rw [hch l hpl hb] at h0
      omega
    have hlp : l ≠ p := fun he => by rw [he] at h0; omega
    exact ⟨ha.reach_of hT.bound hp hpos hcb hch hr hnc, by rw [ha.other l hlp hnc]; exact h0⟩

end Assimilate

section Interpose

variable {S'' : Cell w → ℕ} {p : Cell w} {cb : ℕ}

/-- Splitting a split cell `p` by fewer bits, and the cells of that split by the rest, keeps a
tree: the tree that merging those cells back into `p` gives. -/
theorem IsTree.of_assimilatesAt (ha : AssimilatesAt S S'' p cb) (hT : IsTree S'')
    (hB : ∀ c, 0 < S c → c.bits + S c ≤ w) (hp : Reach S root p) (hpos : 0 < S p) (hcb : 0 < cb)
    (hch : ∀ c, p.Above c → c.bits = p.bits + S p → S c = cb) : IsTree S where
  reach c hc := by
    by_cases hcp : c = p
    · rw [hcp]
      exact hp
    by_cases hnc : p.Above c ∧ c.bits = p.bits + S p
    · exact hp.step_above hpos hnc.1 hnc.2
    · rw [← ha.other c hcp hnc] at hc
      exact (ha.reach_to hB hp hpos hcb hch (hT.reach c hc)).1
  bound := hB

/-- `S'` is `S` with the split of `p` put in two: `p` split by `nb` bits, and each cell of that
split by the bits of the split of `p` left. -/
structure InterposesAt (S S' : Cell w → ℕ) (p : Cell w) (nb : ℕ) : Prop where
  self : S' p = nb
  child : ∀ c, p.Above c → c.bits = p.bits + nb → S' c = S p - nb
  other : ∀ c, c ≠ p → ¬ (p.Above c ∧ c.bits = p.bits + nb) → S' c = S c

variable {nb : ℕ}

/-- Merging the cells of the intermediate split back into `p` gives the tree of before. -/
theorem InterposesAt.assimilatesAt (hi : InterposesAt S S' p nb) (hT : IsTree S)
    (hp : Reach S root p) (h0 : 0 < nb) (hlt : nb < S p) : AssimilatesAt S' S p (S p - nb) where
  self := by
    rw [hi.self]
    omega
  child c hpc hc := by
    rw [hi.self] at hc
    exact hT.eq_zero_of_between hp hpc (by omega) (by omega)
  other c hcp hnc := (hi.other c hcp (by rwa [hi.self] at hnc)).symm

theorem InterposesAt.bound (hi : InterposesAt S S' p nb) (hT : IsTree S) (hlt : nb < S p) :
    ∀ c, 0 < S' c → c.bits + S' c ≤ w := fun c hc => by
  have hb := hT.bound p (by omega)
  by_cases hcp : c = p
  · rw [hcp, hi.self]
    omega
  by_cases hnc : p.Above c ∧ c.bits = p.bits + nb
  · rw [hi.child c hnc.1 hnc.2, hnc.2]
    omega
  · rw [hi.other c hcp hnc] at hc ⊢
    exact hT.bound c hc

theorem InterposesAt.reach_self (hi : InterposesAt S S' p nb) (hp : Reach S root p) :
    Reach S' root p :=
  hp.transfer fun d _ hdp hne => hi.other d hne fun ⟨hpd, _⟩ => hne (hdp.antisymm hpd)

/-- The cells of the intermediate split are reached. -/
theorem InterposesAt.reach_child (hi : InterposesAt S S' p nb) (hp : Reach S root p) (h0 : 0 < nb)
    {c : Cell w} (hpc : p.Above c) (hc : c.bits = p.bits + nb) : Reach S' root c :=
  (hi.reach_self hp).step_above (by rw [hi.self]; exact h0) hpc (by rw [hi.self]; exact hc)

section Interposes

variable (hi : InterposesAt S S' p nb) (hT : IsTree S)
  (hp : Reach S root p) (h0 : 0 < nb) (hlt : nb < S p)
include hi hT hp h0 hlt

/-- Putting an intermediate split into the split of a reached cell keeps a tree. -/
theorem IsTree.interposeAt : IsTree S' :=
  IsTree.of_assimilatesAt (hi.assimilatesAt hT hp h0 hlt) hT (hi.bound hT hlt) (hi.reach_self hp)
    (by rw [hi.self]; exact h0) (by omega) fun c hpc hc => hi.child c hpc (by rwa [hi.self] at hc)

/-- Putting an intermediate split into the split of a reached cell keeps the leaves. -/
theorem isLeaf_interposeAt_iff {l : Cell w} : IsLeaf S' l ↔ IsLeaf S l :=
  (isLeaf_assimilateAt_iff (hi.assimilatesAt hT hp h0 hlt) (hT.interposeAt hi hp h0 hlt)
    (hi.reach_self hp) (by rw [hi.self]; exact h0) (by omega)
    fun c hpc hc => hi.child c hpc (by rwa [hi.self] at hc)).symm

end Interposes

end Interpose

/-- `S'` is `S` with no cell under `x` split. -/
structure CollapsesAt (S S' : Cell w → ℕ) (x : Cell w) : Prop where
  under : ∀ c, x.Above c → S' c = 0
  other : ∀ c, ¬ x.Above c → S' c = S c

section Collapse

variable {x : Cell w} (hc : CollapsesAt S S' x)
include hc

/-- Away from `x`, the collapse reaches what was reached. -/
theorem CollapsesAt.reach_iff {c : Cell w} (hxc : ¬ x.Above c) :
    Reach S' root c ↔ Reach S root c := by
  have hS : ∀ d, (root : Cell w).Above d → d.Above c → d ≠ c → S' d = S d :=
    fun d _ hdc _ => hc.other d fun hxd => hxc (hxd.trans hdc)
  exact ⟨fun h => h.transfer fun d h1 h2 h3 => (hS d h1 h2 h3).symm, fun h => h.transfer hS⟩

theorem CollapsesAt.reach_self (hx : Reach S root x) : Reach S' root x :=
  hx.transfer fun d _ hdx hne => hc.other d fun hxd => hne (hdx.antisymm hxd)

/-- Collapsing the cells under a cell keeps a tree. -/
theorem IsTree.collapseAt (hT : IsTree S) : IsTree S' where
  reach c hpos := by
    have hxc : ¬ x.Above c := fun h => by rw [hc.under c h] at hpos; exact lt_irrefl 0 hpos
    rw [hc.other c hxc] at hpos
    exact (hc.reach_iff hxc).2 (hT.reach c hpos)
  bound c hpos := by
    have hxc : ¬ x.Above c := fun h => by rw [hc.under c h] at hpos; exact lt_irrefl 0 hpos
    rw [hc.other c hxc] at hpos ⊢
    exact hT.bound c hpos

/-- Collapsing the cells under a reached cell makes it the leaf of all under it. -/
theorem isLeaf_collapseAt_iff (hx : Reach S root x) {l : Cell w} :
    IsLeaf S' l ↔ IsLeaf S l ∧ ¬ x.Above l ∨ l = x := by
  have hx' := hc.reach_self hx
  constructor
  · rintro ⟨hr, h0⟩
    by_cases hxl : x.Above l
    · right
      rcases (Reach.of_above hx' hr hxl).eq_or_le with he | ⟨hpos, -⟩
      · exact he
      · rw [hc.under x (Above.refl x)] at hpos
        exact absurd hpos (lt_irrefl 0)
    · exact .inl ⟨⟨(hc.reach_iff hxl).1 hr, by rw [← hc.other l hxl]; exact h0⟩, hxl⟩
  · rintro (⟨⟨hr, h0⟩, hxl⟩ | rfl)
    · exact ⟨(hc.reach_iff hxl).2 hr, by rw [hc.other l hxl]; exact h0⟩
    · exact ⟨hx', hc.under l (Above.refl l)⟩

end Collapse

end Change


end Tree

end Cell

end BitPrefix
