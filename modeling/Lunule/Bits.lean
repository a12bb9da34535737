import Mathlib.Data.Nat.Notation
import Mathlib.Tactic.Tauto

/-!
Fixed-width bit masks read as sets of bit positions. `Sub a b` says every bit set
in `a` is set in `b`; it is the mask test `a & b == a` that C code writes, and it
turns into a statement about single bits, where the Boolean connectives decide.
-/

namespace Bits

variable {w : ℕ}

/-- Every bit of `a` is a bit of `b`. -/
def Sub (a b : BitVec w) : Prop := a &&& b = a

instance (a b : BitVec w) : Decidable (Sub a b) := inferInstanceAs (Decidable (a &&& b = a))

theorem sub_iff {a b : BitVec w} : Sub a b ↔ ∀ i, a.getLsbD i = true → b.getLsbD i = true := by
  unfold Sub
  constructor
  · intro h i hi
    have hbit := congrArg (fun x => x.getLsbD i) h
    simp only [BitVec.getLsbD_and, hi, Bool.true_and] at hbit
    exact hbit
  · intro h
    apply BitVec.eq_of_getLsbD_eq
    intro i _
    simp only [BitVec.getLsbD_and]
    cases ha : a.getLsbD i
    · rfl
    · simp only [h i ha, Bool.true_and]

theorem sub_refl (a : BitVec w) : Sub a a := Iff.mpr sub_iff fun _ h => h

theorem sub_trans {a b c : BitVec w} (hab : Sub a b) (hbc : Sub b c) : Sub a c :=
  Iff.mpr sub_iff fun i h => Iff.mp sub_iff hbc i (Iff.mp sub_iff hab i h)

theorem zero_sub (a : BitVec w) : Sub 0 a := Iff.mpr sub_iff fun i h => by
  simp only [BitVec.ofNat_eq_ofNat, BitVec.getLsbD_zero, Bool.false_eq_true] at h

theorem sub_or_left (a b : BitVec w) : Sub a (a ||| b) :=
  Iff.mpr sub_iff fun i h => by simp only [BitVec.getLsbD_or, h, Bool.true_or]

theorem sub_or_right (a b : BitVec w) : Sub b (a ||| b) :=
  Iff.mpr sub_iff fun i h => by simp only [BitVec.getLsbD_or, h, Bool.or_true]

theorem or_sub {a b c : BitVec w} (ha : Sub a c) (hb : Sub b c) : Sub (a ||| b) c := by
  refine Iff.mpr sub_iff fun i h => ?_
  simp only [BitVec.getLsbD_or, Bool.or_eq_true] at h
  rcases h with h | h
  · exact Iff.mp sub_iff ha i h
  · exact Iff.mp sub_iff hb i h

theorem and_sub_left (a b : BitVec w) : Sub (a &&& b) a :=
  Iff.mpr sub_iff fun i h => by
    simp only [BitVec.getLsbD_and, Bool.and_eq_true] at h
    exact h.1

theorem and_sub_right (a b : BitVec w) : Sub (a &&& b) b :=
  Iff.mpr sub_iff fun i h => by
    simp only [BitVec.getLsbD_and, Bool.and_eq_true] at h
    exact h.2

theorem sub_and {a b c : BitVec w} (hb : Sub c a) (hc : Sub c b) : Sub c (a &&& b) :=
  Iff.mpr sub_iff fun i h => by
    simp only [BitVec.getLsbD_and, Iff.mp sub_iff hb i h, Iff.mp sub_iff hc i h, Bool.and_self]

theorem sub_or_of_sub_left {a b c : BitVec w} (h : Sub a b) : Sub a (b ||| c) :=
  sub_trans h (sub_or_left b c)

/-- `a & ~b == 0`: no bit of `a` lies outside `b`. -/
theorem and_not_eq_zero_iff {a b : BitVec w} : a &&& ~~~b = 0 ↔ Sub a b := by
  rw [sub_iff, BitVec.eq_of_getLsbD_eq_iff]
  constructor
  · intro h i ha
    have hi : i < w := by
      rcases Nat.lt_or_ge i w with hi | hge
      · exact hi
      · rw [BitVec.getLsbD_of_ge a i hge] at ha
        exact absurd ha (by decide)
    have hbit := h i hi
    simpa only [BitVec.getLsbD_and, BitVec.getLsbD_not, ha, hi, decide_true, Bool.true_and,
      BitVec.ofNat_eq_ofNat, BitVec.getLsbD_zero, Bool.not_eq_false'] using hbit
  · intro h i hi
    cases ha : a.getLsbD i
    · simp only [BitVec.getLsbD_and, ha, Bool.false_and, BitVec.ofNat_eq_ofNat, BitVec.getLsbD_zero]
    · simp only [BitVec.getLsbD_and, BitVec.getLsbD_not, ha, h i ha, Bool.not_true, Bool.and_false,
        BitVec.ofNat_eq_ofNat, BitVec.getLsbD_zero]

/-- Two masks are equal when each is contained in the other. -/
theorem eq_of_sub_of_sub {a b : BitVec w} (hab : Sub a b) (hba : Sub b a) : a = b := by
  apply BitVec.eq_of_getLsbD_eq
  intro i _
  cases ha : a.getLsbD i <;> cases hb : b.getLsbD i
  · rfl
  · exact absurd (Iff.mp sub_iff hba i hb) (by simp only [ha, Bool.false_eq_true, not_false_eq_true])
  · exact absurd (Iff.mp sub_iff hab i ha) (by simp only [hb, Bool.false_eq_true, not_false_eq_true])
  · rfl

end Bits
