import Lunule.Frag
import Lunule.BitPrefix

/-!
The frags that `frag_t(v, b)` builds with `b ≤ 24` are the prefix cells of 24-bit words: the
word of such a frag holds the cell's bits in its upper byte and the cell's prefix, left-aligned,
in the lower 24. On these frags the word operations of `ceph_frag.h` are the cell operations:
a frag contains the hash values of its cell, and its parent and sibling are the cell's.
-/

namespace Lunule.Frag

open BitPrefix

/-- The word of the frag of a cell. -/
def code (c : Cell 24) : ℕ := c.bits * 2 ^ 24 + c.pre * 2 ^ (24 - c.bits)

theorem code_div (c : Cell 24) : code c / 2 ^ 24 = c.bits := by
  have h := c.pre_mul_lt
  unfold code
  generalize c.pre * 2 ^ (24 - c.bits) = x at h
  omega

theorem code_mod (c : Cell 24) : code c % 2 ^ 24 = c.pre * 2 ^ (24 - c.bits) := by
  have h := c.pre_mul_lt
  unfold code
  generalize c.pre * 2 ^ (24 - c.bits) = x at h
  omega

theorem code_lt (c : Cell 24) : code c < 2 ^ 32 := by
  have h := c.pre_mul_lt
  have hb := c.bits_le
  unfold code
  generalize c.pre * 2 ^ (24 - c.bits) = x at h
  omega

/-- The frag of a cell. -/
def ofCell (c : Cell 24) : FragT := ⟨UInt32.ofNatLT (code c) (code_lt c)⟩

@[simp] theorem toNat_enc_ofCell (c : Cell 24) : (ofCell c).enc.toNat = code c :=
  UInt32.toNat_ofNatLT

theorem ofCell_injective : Function.Injective ofCell := by
  intro c d h
  have hcode : code c = code d := by
    rw [← toNat_enc_ofCell, ← toNat_enc_ofCell, h]
  have hb : c.bits = d.bits := by rw [← code_div c, ← code_div d, hcode]
  refine Cell.ext' hb ?_
  have hp : c.pre * 2 ^ (24 - c.bits) = d.pre * 2 ^ (24 - d.bits) := by
    rw [← code_mod c, ← code_mod d, hcode]
  rw [hb] at hp
  exact Nat.eq_of_mul_eq_mul_right (Nat.two_pow_pos _) hp

theorem bits_ofCell (c : Cell 24) : (ofCell c).bits.toNat = c.bits := by
  rw [FragT.bits, cephFragBits, UInt32.toNat_shiftRight, toNat_enc_ofCell,
    show (24 : UInt32).toNat % 32 = 24 from rfl, Nat.shiftRight_eq_div_pow]
  exact code_div c

theorem value_ofCell (c : Cell 24) : (ofCell c).value.toNat = c.pre * 2 ^ (24 - c.bits) := by
  simp only [FragT.value, cephFragValue, UInt32.toNat_and, toNat_enc_ofCell]
  rw [show (0xffffff : UInt32).toNat = 2 ^ 24 - 1 from rfl, Nat.and_two_pow_sub_one_eq_mod]
  exact code_mod c

theorem isRoot_ofCell_eq_false (c : Cell 24) : (ofCell c).isRoot = false ↔ 0 < c.bits := by
  rw [← bits_ofCell c, FragT.isRoot, beq_eq_false_iff_ne, ne_eq, ← UInt32.toNat_inj]
  simp only [UInt32.toNat_zero]
  omega

/-- The mask `ceph_frag_make` and `ceph_frag_mask` build for `b ≤ 24` bits: the bits from
`24 - b` to 24. -/
theorem toNat_lowMask {b : UInt32} (hb : b.toNat ≤ 24) :
    (((0xffffff : UInt32) <<< (24 - b)) &&& 0xffffff).toNat = 2 ^ 24 - 2 ^ (24 - b.toNat) := by
  have hsub : (24 - b).toNat = 24 - b.toNat :=
    UInt32.toNat_sub_of_le _ _ (by rw [UInt32.le_iff_toNat_le]; exact hb)
  simp only [UInt32.toNat_and, UInt32.toNat_shiftLeft, hsub, Nat.shiftLeft_eq]
  rw [Nat.mod_eq_of_lt (by omega : 24 - b.toNat < 32)]
  exact low_ones_mul_two_pow_mod_and (n := 24) (m := 32) (by omega) (by decide)

theorem mask_ofCell (c : Cell 24) : (ofCell c).mask.toNat = 2 ^ 24 - 2 ^ (24 - c.bits) := by
  have hb := bits_ofCell c
  rw [FragT.mask, cephFragMask, show cephFragBits (ofCell c).enc = (ofCell c).bits from rfl,
    toNat_lowMask (by rw [hb]; exact c.bits_le), hb]

/-- `frag_t(v, b)` with `b ≤ 24` is the frag of the cell of `b` bits that holds `v`. -/
theorem make_eq_ofCell (v b : UInt32) (hb : b.toNat ≤ 24) :
    FragT.make v b = ofCell (Cell.ofWord b.toNat hb v.toNat) := by
  have hshift : (b <<< 24).toNat = b.toNat * 2 ^ 24 := by
    rw [UInt32.toNat_shiftLeft, show (24 : UInt32).toNat % 32 = 24 from rfl, Nat.shiftLeft_eq]
    exact Nat.mod_eq_of_lt (by omega)
  have hlow : (v &&& ((0xffffff : UInt32) <<< (24 - b)) &&& 0xffffff).toNat =
      (Cell.ofWord b.toNat hb v.toNat : Cell 24).pre * 2 ^ (24 - b.toNat) := by
    rw [UInt32.and_assoc, UInt32.toNat_and, toNat_lowMask hb, and_two_pow_sub_two_pow (by omega)]
    rfl
  have hx : (Cell.ofWord b.toNat hb v.toNat : Cell 24).pre * 2 ^ (24 - b.toNat) < 2 ^ 24 :=
    Cell.pre_mul_lt _
  apply FragT.ext
  apply UInt32.toNat_inj.mp
  rw [FragT.make, cephFragMake, UInt32.toNat_or, hshift, hlow, toNat_enc_ofCell, mul_two_pow_or hx]
  rfl

/-- `frag_t(v, b)` names the cell `d` when `b` is its number of bits and `v` its prefix put
back in place. -/
theorem make_eq_ofCell_of {v b : UInt32} {d : Cell 24} (hb : b.toNat = d.bits)
    (hv : v.toNat = d.pre * 2 ^ (24 - d.bits)) : FragT.make v b = ofCell d := by
  rw [make_eq_ofCell v b (by rw [hb]; exact d.bits_le)]
  congr 1
  refine Cell.ext' hb ?_
  show v.toNat % 2 ^ 24 / 2 ^ (24 - b.toNat) = d.pre
  rw [hv, hb, Nat.mod_eq_of_lt d.pre_mul_lt, Nat.mul_div_cancel _ (Nat.two_pow_pos _)]

theorem contains_ofCell (c : Cell 24) (v : UInt32) :
    (ofCell c).contains v = true ↔ c.Mem (v.toNat % 2 ^ 24) := by
  rw [FragT.contains_eq, beq_iff_eq, ← UInt32.toNat_inj, UInt32.toNat_and, mask_ofCell,
    value_ofCell, and_two_pow_sub_two_pow (by omega), Cell.Mem]
  exact Nat.mul_right_cancel_iff (Nat.two_pow_pos _)

theorem parent_ofCell (c : Cell 24) (h : 0 < c.bits) : (ofCell c).parent = ofCell c.parent := by
  have hb := bits_ofCell c
  have hk : 24 - c.parent.bits = (24 - c.bits) + 1 := by
    simp only [Cell.bits_parent]
    have := c.bits_le
    omega
  have hbits : ((ofCell c).bits - 1).toNat = c.parent.bits := by
    rw [UInt32.toNat_sub_of_le _ _ (by rw [UInt32.le_iff_toNat_le, hb]; exact h), hb]
    rfl
  have hmask : ((ofCell c).mask <<< 1).toNat = 2 ^ 25 - 2 ^ (24 - c.bits + 1) := by
    rw [UInt32.toNat_shiftLeft, mask_ofCell, Nat.shiftLeft_eq,
      show (1 : UInt32).toNat % 32 = 1 from rfl, Nat.pow_one, Nat.sub_mul, ← Nat.pow_succ,
      ← Nat.pow_succ]
    exact Nat.mod_eq_of_lt (lt_of_le_of_lt (Nat.sub_le _ _) (by decide))
  have hvalue : ((ofCell c).value &&& ((ofCell c).mask <<< 1)).toNat =
      c.parent.pre * 2 ^ (24 - c.parent.bits) := by
    rw [UInt32.toNat_and, value_ofCell, hmask, and_two_pow_sub_two_pow (by omega),
      Nat.mod_eq_of_lt (lt_trans c.pre_mul_lt (by decide)), hk, Nat.pow_succ',
      Nat.mul_div_mul_right _ _ (Nat.two_pow_pos _)]
    rfl
  rw [FragT.parent_eq_make]
  exact make_eq_ofCell_of hbits hvalue

theorem getSibling_ofCell (c : Cell 24) (h : 0 < c.bits) :
    (ofCell c).getSibling = ofCell (c.sibling h) := by
  have hb := bits_ofCell c
  have hbit : ((0x1000000 : UInt32) >>> (ofCell c).bits).toNat = 2 ^ (24 - c.bits) := by
    rw [UInt32.toNat_shiftRight, hb, Nat.mod_eq_of_lt (by have := c.bits_le; omega),
      Nat.shiftRight_eq_div_pow, show (0x1000000 : UInt32).toNat = 2 ^ 24 from rfl,
      Nat.pow_div c.bits_le (by decide)]
  have hvalue : ((ofCell c).value ^^^ ((0x1000000 : UInt32) >>> (ofCell c).bits)).toNat =
      (c.sibling h).pre * 2 ^ (24 - (c.sibling h).bits) := by
    rw [UInt32.toNat_xor, value_ofCell, hbit, mul_two_pow_xor_two_pow]
    rfl
  rw [FragT.getSibling_eq_make]
  exact make_eq_ofCell_of hb hvalue

/-! ## Canonical frags -/

/-- Built by `frag_t(v, b)` with `b ≤ 24`: the prefix is left-aligned in the 24 value bits and
the bits below it are clear. -/
def FragT.Canonical (f : FragT) : Prop := f.bits.toNat ≤ 24 ∧ FragT.make f.value f.bits = f

instance FragT.decidableCanonical : DecidablePred FragT.Canonical :=
  fun _ => inferInstanceAs (Decidable (_ ∧ _))

theorem canonical_ofCell (c : Cell 24) : (ofCell c).Canonical :=
  ⟨by rw [bits_ofCell]; exact c.bits_le, make_eq_ofCell_of (bits_ofCell c) (value_ofCell c)⟩

theorem FragT.Canonical.exists_ofCell {f : FragT} (hf : f.Canonical) : ∃ c, f = ofCell c :=
  ⟨_, hf.2.symm.trans (make_eq_ofCell _ _ hf.1)⟩

end Lunule.Frag
