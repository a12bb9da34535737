import Lunule.FirstMax
import Lunule.Crush.Hash

/-!
`bucket_straw2_choose` (`crush/mapper.c`). Every item of the bucket draws
`(crush_ln(hash & 0xffff) - 2^48) / weight`, an item of weight `0` draws `S64_MIN`, and the first
item of greatest draw is chosen. An item's draw depends on its own weight only, so changing one
item's weight can move the choice only to or from that item; and since an item of nonzero weight
draws at least `-2^48`, an item of weight `0` is never chosen over it.
-/

namespace Lunule.Crush

/-- The fields of `crush_bucket` that `bucket_straw2_choose` reads. -/
structure CrushBucket where
  hash : ℕ
  size : ℕ
  items : List ℤ
  deriving DecidableEq, Repr

structure CrushBucketStraw2 where
  h : CrushBucket
  /-- 16.16 fixed-point weights. -/
  itemWeights : List ℕ
  deriving DecidableEq, Repr

/-- `crush_choose_arg`, a `NULL` array being `none`; each weight set is its `weights` array. -/
structure CrushChooseArg where
  ids : Option (List ℤ)
  weightSet : Option (List (List ℕ))
  deriving DecidableEq, Repr

/-- `get_choose_arg_weights`: the bucket's own weights without a weight set, otherwise the set
of the position, the last one for a position past the end. -/
def getChooseArgWeights (bucket : CrushBucketStraw2) (arg : Option CrushChooseArg)
    (position : ℕ) : List ℕ :=
  match arg.bind CrushChooseArg.weightSet with
  | none => bucket.itemWeights
  | some ws => ws.getD (if position ≥ ws.length then ws.length - 1 else position) []

/-- `get_choose_arg_ids`. -/
def getChooseArgIds (bucket : CrushBucketStraw2) (arg : Option CrushChooseArg) : List ℤ :=
  (arg.bind CrushChooseArg.ids).getD bucket.h.items

/-- `S64_MIN`. -/
def s64Min : ℤ := -2 ^ 63

/-- The draw of one item in `bucket_straw2_choose`: `crush_ln(u) - 0x1000000000000ll` is taken
modulo `2^64` as a signed 64-bit number, and `div64_s64` truncates. -/
def straw2Draw (hashType : ℕ) (x r id : ℤ) (weight : ℕ) : ℤ :=
  if weight ≠ 0 then
    let u := (crushHash32_3 hashType (UInt32.ofInt x) (UInt32.ofInt id) (UInt32.ofInt r)).toNat
      &&& 0xffff
    let ln := ((crushLn u : ℤ) - 0x1000000000000).bmod (2 ^ 64)
    ln.tdiv weight
  else s64Min

/-- The loop of `bucket_straw2_choose` over the weights and ids it reads: `high` starts at
item `0` and moves to a later item only for a strictly greater draw. -/
def straw2High (b : CrushBucket) (weights : List ℕ) (ids : List ℤ) (x r : ℤ) : ℕ :=
  (FirstMax.scan (fun i => straw2Draw b.hash x r (ids.getD i 0) (weights.getD i 0)) (0, 0)
    b.size).1

def straw2Choose (b : CrushBucket) (weights : List ℕ) (ids : List ℤ) (x r : ℤ) : ℤ :=
  b.items.getD (straw2High b weights ids x r) 0

/-- `bucket_straw2_choose(bucket, x, r, arg, position)`. -/
def bucketStraw2Choose (bucket : CrushBucketStraw2) (x r : ℤ) (arg : Option CrushChooseArg)
    (position : ℕ) : ℤ :=
  straw2Choose bucket.h (getChooseArgWeights bucket arg position) (getChooseArgIds bucket arg) x r

/-! ### The draws -/

section Draws

variable {hashType : ℕ} {x r id : ℤ} {weight : ℕ}

theorem straw2Draw_zero : straw2Draw hashType x r id 0 = s64Min := rfl

/-- `crush_ln(u) - 2^48`, read back as a signed 64-bit number, is at least `-2^48`. -/
theorem le_bmod_crushLn (u : ℕ) :
    -0x1000000000000 ≤ ((crushLn u : ℤ) - 0x1000000000000).bmod (2 ^ 64) := by
  have hlt := crushLn_lt u
  rw [Int.bmod_eq_of_le (by push_cast; omega) (by push_cast; omega)]
  omega

/-- An item of nonzero weight draws more than `S64_MIN`. -/
theorem s64Min_lt_straw2Draw (hw : weight ≠ 0) : s64Min < straw2Draw hashType x r id weight := by
  have hpos : (0 : ℤ) < weight := by exact_mod_cast Nat.pos_of_ne_zero hw
  have hmul : (-0x1000000000000 : ℤ) * weight ≤ -0x1000000000000 := by omega
  unfold straw2Draw
  rw [if_pos hw]
  dsimp only
  have hle := le_bmod_crushLn
    ((crushHash32_3 hashType (UInt32.ofInt x) (UInt32.ofInt id) (UInt32.ofInt r)).toNat &&& 0xffff)
  have hdraw := Int.le_tdiv_of_mul_le hpos (hmul.trans hle)
  unfold s64Min
  omega

end Draws

/-! ### The choice -/

section Choice

variable (b : CrushBucket) (ids : List ℤ) (x r : ℤ) {w w' : List ℕ} {j : ℕ}

theorem isFirstMax_straw2High (w : List ℕ) (hsize : 0 < b.size) :
    FirstMax.IsFirstMax (fun i => straw2Draw b.hash x r (ids.getD i 0) (w.getD i 0)) b.size
      (straw2High b w ids x r) :=
  (FirstMax.isFirstMax_scan hsize).1

/-- Weights that agree off item `j` choose the same index unless one of the two choices is
`j`. -/
theorem straw2High_eq_or (hw : ∀ i, i ≠ j → w.getD i 0 = w'.getD i 0) :
    straw2High b w ids x r = straw2High b w' ids x r ∨
      straw2High b w ids x r = j ∨ straw2High b w' ids x r = j := by
  rcases Nat.eq_zero_or_pos b.size with hsize | hsize
  · left
    simp [straw2High, FirstMax.scan, hsize]
  by_contra hne
  simp only [not_or] at hne
  obtain ⟨hne, haj, hbj⟩ := hne
  exact hne ((isFirstMax_straw2High b ids x r w hsize).eq_of_eqOn (fun i hi => by rw [hw i hi])
    (isFirstMax_straw2High b ids x r w' hsize) haj hbj)

/-- With an item of nonzero weight in the bucket, the chosen index has nonzero weight. -/
theorem straw2High_weight_ne_zero (hex : ∃ i < b.size, w.getD i 0 ≠ 0) :
    w.getD (straw2High b w ids x r) 0 ≠ 0 := by
  obtain ⟨i, hi, hwi⟩ := hex
  have hmax := (isFirstMax_straw2High b ids x r w (Nat.zero_lt_of_lt hi)).le i hi
  intro hzero
  rw [hzero, straw2Draw_zero] at hmax
  exact absurd hmax (not_le.2 (s64Min_lt_straw2Draw hwi))

/-- `bucket_straw2_choose` on two buckets with the same items and ids, reading weights that differ
only at index `j` (the buckets' own weights or a choose_arg weight set, at any position): if the
choices differ, one of them is item `j`. And as soon as some item has nonzero weight, the item
chosen sits at an index of nonzero weight. -/
theorem straw2_reweight_moves_only_j (bucket bucket' : CrushBucketStraw2)
    (arg arg' : Option CrushChooseArg) (position position' : ℕ) (x r : ℤ) (j : ℕ)
    (hh : bucket.h = bucket'.h)
    (hids : arg.bind CrushChooseArg.ids = arg'.bind CrushChooseArg.ids)
    (hw : ∀ i, i ≠ j → (getChooseArgWeights bucket arg position).getD i 0 =
      (getChooseArgWeights bucket' arg' position').getD i 0) :
    (bucketStraw2Choose bucket x r arg position ≠ bucketStraw2Choose bucket' x r arg' position' →
        bucketStraw2Choose bucket x r arg position = bucket.h.items.getD j 0 ∨
          bucketStraw2Choose bucket' x r arg' position' = bucket.h.items.getD j 0) ∧
      ((∃ i < bucket.h.size, (getChooseArgWeights bucket arg position).getD i 0 ≠ 0) →
        ∃ i < bucket.h.size, bucket.h.items.getD i 0 = bucketStraw2Choose bucket x r arg position ∧
          (getChooseArgWeights bucket arg position).getD i 0 ≠ 0) := by
  have hids' : getChooseArgIds bucket' arg' = getChooseArgIds bucket arg := by
    unfold getChooseArgIds
    rw [hids, hh]
  refine ⟨fun hne => ?_, fun hex => ?_⟩
  · unfold bucketStraw2Choose straw2Choose at hne ⊢
    rw [hids', ← hh] at hne ⊢
    rcases straw2High_eq_or bucket.h (getChooseArgIds bucket arg) x r hw with heq | hj | hj
    · exact absurd (by rw [heq]) hne
    · exact Or.inl (by rw [hj])
    · exact Or.inr (by rw [hj])
  · obtain ⟨i, hi, -⟩ := id hex
    exact ⟨_, (isFirstMax_straw2High bucket.h (getChooseArgIds bucket arg) x r _
      (Nat.zero_lt_of_lt hi)).lt, rfl, straw2High_weight_ne_zero _ _ x r hex⟩

end Choice

/-- A bucket of two items with ids `0` and `1`. -/
def twoItems : CrushBucket := ⟨crushHashRjenkins1, 2, [0, 1]⟩

/-- At `x = 1`, tripling item 1's weight moves the choice from item 0 to item 1. -/
example : straw2Choose twoItems [0x10000, 0x10000] [0, 1] 1 0 = 0 ∧
    straw2Choose twoItems [0x10000, 0x30000] [0, 1] 1 0 = 1 := by
  decide +kernel

/-- `twoItems` with both items of weight `1.0`. -/
def twoItemsEven : CrushBucketStraw2 := ⟨twoItems, [0x10000, 0x10000]⟩

/-- `twoItems` with item `1` reweighted to `0`. -/
def twoItemsDrained : CrushBucketStraw2 := ⟨twoItems, [0x10000, 0]⟩

theorem straw2_reweight_twoItems :
    twoItemsEven.h = twoItemsDrained.h ∧
      (none : Option CrushChooseArg).bind CrushChooseArg.ids =
        (none : Option CrushChooseArg).bind CrushChooseArg.ids ∧
      (∀ i, i ≠ 1 → (getChooseArgWeights twoItemsEven none 0).getD i 0 =
        (getChooseArgWeights twoItemsDrained none 0).getD i 0) ∧
      (bucketStraw2Choose twoItemsEven 7 0 none 0 ≠ bucketStraw2Choose twoItemsDrained 7 0 none 0 →
          bucketStraw2Choose twoItemsEven 7 0 none 0 = twoItemsEven.h.items.getD 1 0 ∨
            bucketStraw2Choose twoItemsDrained 7 0 none 0 = twoItemsEven.h.items.getD 1 0) ∧
      ((∃ i < twoItemsEven.h.size, (getChooseArgWeights twoItemsEven none 0).getD i 0 ≠ 0) →
        ∃ i < twoItemsEven.h.size,
          twoItemsEven.h.items.getD i 0 = bucketStraw2Choose twoItemsEven 7 0 none 0 ∧
          (getChooseArgWeights twoItemsEven none 0).getD i 0 ≠ 0) := by
  have hw : ∀ i, i ≠ 1 → (getChooseArgWeights twoItemsEven none 0).getD i 0 =
      (getChooseArgWeights twoItemsDrained none 0).getD i 0 := by
    intro i hi
    rcases i with _ | _ | i
    · rfl
    · exact absurd rfl hi
    · rfl
  exact ⟨rfl, rfl, hw,
    straw2_reweight_moves_only_j twoItemsEven twoItemsDrained none none 0 0 7 0 1 rfl rfl hw⟩

end Lunule.Crush
