import Lunule.Crush.Mapper

/-!
The work area of `bucket_perm_choose` (`crush/mapper.c`). A call for input `x` and position
`r % size` reads one entry of the Fisher-Yates permutation of the bucket for `x`: position `p` is
swapped with `p + hash(x, id, p) % (size - p)` for `p = 0, 1, ...`. The work area keeps the swaps
made so far for the last `x` (`perm_x`, and their number `perm_n`), so that the next call with the
same `x` only makes the swaps it still needs; `perm_n = 0xffff` marks the shortcut for `r = 0`,
which computes `perm[0]` alone.

A cached permutation is the permutation after `perm_n` swaps (`PermCache`), and the swaps from
position `p` on leave the entries before `p` alone. So every call returns the entry of the full
permutation whatever the earlier calls left in the work area, which is the entry a fresh work area
gives; and since every swap permutes `range size`, distinct positions give distinct items.
-/

namespace Lunule.Crush

/-- The work area `crush_init_workspace` sets up: no permutation yet. -/
def freshWork (b : MapBucket) : WorkBucket :=
  ⟨0, 0, List.replicate b.h.size 0⟩

/-- The first `k` Fisher-Yates swaps for input `x`, from the identity. -/
def fyPrefix (b : MapBucket) (x : ℤ) (k : ℕ) : WorkBucket :=
  (permSwap b x)^[k] ⟨UInt32.ofInt x, 0, List.range b.h.size⟩

/-- `pi_x`: the permutation after all the swaps. -/
def fisherYates (b : MapBucket) (x : ℤ) : List ℕ :=
  (fyPrefix b x b.h.size).perm

/-- The work areas that calls of `bucket_perm_choose` on one bucket can leave, from any area with
no permutation yet; the fallback of `crush_choose_firstn` makes the same calls. -/
inductive PermReachable (b : MapBucket) : WorkBucket → Prop
  | init {w : WorkBucket} : w.permN = 0 → w.perm.length = b.h.size → PermReachable b w
  | call {w : WorkBucket} (x r : ℤ) : PermReachable b w →
      PermReachable b (bucketPermChoose b w x r).2

/-! ### One swap -/

section Swap

variable {b : MapBucket} {x : ℤ} {w : WorkBucket}

/-- The offset of swap `p = perm_n` from `p`. -/
def swapOffset (b : MapBucket) (x : ℤ) (w : WorkBucket) : ℕ :=
  (crushHash32_3 b.h.hash (UInt32.ofInt x) (UInt32.ofInt b.id) w.permN).toNat %
    (b.h.size - w.permN.toNat)

/-- Entries `p` and `p + i` of `l` exchanged. -/
def swapEntries (l : List ℕ) (p i : ℕ) : List ℕ :=
  (l.set (p + i) (l.getD p 0)).set p (l.getD (p + i) 0)

theorem permSwap_eq (b : MapBucket) (x : ℤ) (w : WorkBucket) :
    permSwap b x w =
      ⟨w.permX, w.permN + 1,
        if w.permN.toNat < b.h.size - 1 ∧ swapOffset b x w ≠ 0 then
          swapEntries w.perm w.permN.toNat (swapOffset b x w)
        else w.perm⟩ := by
  dsimp only [permSwap, swapOffset, swapEntries]
  split_ifs <;> simp_all

@[simp]
theorem permSwap_permX : (permSwap b x w).permX = w.permX := by
  rw [permSwap_eq]

@[simp]
theorem permSwap_permN : (permSwap b x w).permN = w.permN + 1 := by
  rw [permSwap_eq]

@[simp]
theorem swapEntries_length (l : List ℕ) (p i : ℕ) : (swapEntries l p i).length = l.length := by
  simp [swapEntries]

@[simp]
theorem permSwap_length : (permSwap b x w).perm.length = w.perm.length := by
  rw [permSwap_eq]
  split_ifs <;> simp

/-- Swap `p = perm_n` touches positions `p` and after only. -/
theorem permSwap_getD_of_lt {j : ℕ} (hj : j < w.permN.toNat) :
    (permSwap b x w).perm.getD j 0 = w.perm.getD j 0 := by
  rw [permSwap_eq]
  split_ifs
  · simp only [swapEntries, List.getD_eq_getElem?_getD, List.getElem?_set]
    rw [if_neg (by omega), if_neg (by omega)]
  · rfl

theorem swapEntries_perm {l : List ℕ} {p i : ℕ} (hi : p + i < l.length) :
    (swapEntries l p i).Perm l := by
  unfold swapEntries
  rw [List.getD_eq_getElem _ _ (by omega), List.getD_eq_getElem _ _ hi]
  exact List.set_set_perm hi (by omega)

/-- Each swap permutes the entries. -/
theorem permSwap_perm (hlen : w.perm.length = b.h.size) :
    (permSwap b x w).perm.Perm w.perm := by
  rw [permSwap_eq]
  split_ifs with h
  · apply swapEntries_perm
    have hlt := Nat.mod_lt (crushHash32_3 b.h.hash (UInt32.ofInt x) (UInt32.ofInt b.id)
      w.permN).toNat (show 0 < b.h.size - w.permN.toNat by omega)
    unfold swapOffset
    omega
  · exact List.Perm.refl _

/-- The swaps read `x` through `(__u32)x` only. -/
theorem permSwap_congr {x' : ℤ} (hx : UInt32.ofInt x = UInt32.ofInt x') :
    permSwap b x = permSwap b x' := by
  funext w
  simp only [permSwap, hx]

end Swap

/-! ### The swaps made so far -/

section Prefix

variable {b : MapBucket} {x : ℤ} {j k m : ℕ}

theorem fyPrefix_succ (k : ℕ) : fyPrefix b x (k + 1) = permSwap b x (fyPrefix b x k) := by
  rw [fyPrefix, Function.iterate_succ_apply', fyPrefix]

theorem iterate_fyPrefix (d k : ℕ) : (permSwap b x)^[d] (fyPrefix b x k) = fyPrefix b x (k + d) := by
  rw [fyPrefix, fyPrefix, ← Function.iterate_add_apply, Nat.add_comm]

@[simp]
theorem fyPrefix_permX (k : ℕ) : (fyPrefix b x k).permX = UInt32.ofInt x := by
  induction k with
  | zero => rfl
  | succ k ih => rw [fyPrefix_succ, permSwap_permX, ih]

@[simp]
theorem fyPrefix_permN (k : ℕ) : (fyPrefix b x k).permN = UInt32.ofNat k := by
  induction k with
  | zero => rfl
  | succ k ih => rw [fyPrefix_succ, permSwap_permN, ih, UInt32.ofNat_add, UInt32.ofNat_one]

@[simp]
theorem fyPrefix_length (k : ℕ) : (fyPrefix b x k).perm.length = b.h.size := by
  induction k with
  | zero => simp [fyPrefix]
  | succ k ih => rw [fyPrefix_succ, permSwap_length, ih]

theorem fyPrefix_perm (k : ℕ) : (fyPrefix b x k).perm.Perm (List.range b.h.size) := by
  induction k with
  | zero => exact List.Perm.refl _
  | succ k ih =>
    rw [fyPrefix_succ]
    exact (permSwap_perm (fyPrefix_length k)).trans ih

theorem toNat_fyPrefix_permN (hm : m < 2 ^ 32) : (fyPrefix b x m).permN.toNat = m := by
  rw [fyPrefix_permN, UInt32.toNat_ofNat_of_lt' hm]

/-- Once `k` swaps are made, the entries before `k` are final. -/
theorem fyPrefix_getD_of_lt (hjk : j < k) (hkm : k ≤ m) (hm : m < 2 ^ 32) :
    (fyPrefix b x m).perm.getD j 0 = (fyPrefix b x k).perm.getD j 0 := by
  induction m, hkm using Nat.le_induction with
  | base => rfl
  | succ m hkm ih =>
    rw [fyPrefix_succ, permSwap_getD_of_lt (by rw [toNat_fyPrefix_permN (by omega)]; omega),
      ih (by omega)]

theorem ofInt_toNat (u : UInt32) : UInt32.ofInt (u.toNat : ℤ) = u := by
  have hlt := u.toNat_lt
  unfold UInt32.ofInt
  rw [Int.emod_eq_of_lt (by omega) (by omega)]
  simp

theorem fyPrefix_congr {x' : ℤ} (hx : UInt32.ofInt x = UInt32.ofInt x') (k : ℕ) :
    fyPrefix b x k = fyPrefix b x' k := by
  rw [fyPrefix, fyPrefix, permSwap_congr hx, hx]

/-- The cache names `x` by `perm_x`. -/
theorem fyPrefix_permX_toNat (k : ℕ) :
    fyPrefix b ((UInt32.ofInt x).toNat : ℤ) k = fyPrefix b x k :=
  fyPrefix_congr (ofInt_toNat _) k

end Prefix

/-! ### The `r = 0` shortcut -/

section Shortcut

variable {b : MapBucket} {x : ℤ}

theorem range_set_zero (n : ℕ) : (List.range n).set 0 0 = List.range n := by
  apply List.ext_getElem (by simp)
  intro i h1 h2
  simp only [List.getElem_set, List.getElem_range]
  split_ifs <;> omega

theorem fyPrefix_one (b : MapBucket) (x : ℤ) :
    fyPrefix b x 1 = permSwap b x ⟨UInt32.ofInt x, 0, List.range b.h.size⟩ := rfl

/-- After the first swap, `perm[0]` is `hash(x, id, 0) % size`: what the shortcut stores. -/
theorem fyPrefix_one_getD_zero (hpos : 0 < b.h.size) :
    (fyPrefix b x 1).perm.getD 0 0 =
      (crushHash32_3 b.h.hash (UInt32.ofInt x) (UInt32.ofInt b.id) 0).toNat % b.h.size := by
  rw [fyPrefix_one, permSwap_eq]
  simp only [swapOffset, UInt32.toNat_zero, Nat.sub_zero]
  split_ifs with h
  · have hlt := Nat.mod_lt
      (crushHash32_3 b.h.hash (UInt32.ofInt x) (UInt32.ofInt b.id) 0).toNat hpos
    simp [swapEntries, hpos, hlt]
  · rcases not_and_or.1 h with h | h
    · have hone : b.h.size = 1 := by omega
      simp [hone, Nat.mod_one]
    · simp only [ne_eq, not_not] at h
      simp [h, hpos]

/-- The clean-up after the shortcut, `perm[i] = i` for `i >= 1` and then `perm[perm[0]] = 0`,
rebuilds the permutation after the first swap from its entry `0`. -/
theorem cleanup_eq_fyPrefix_one (hpos : 0 < b.h.size) :
    ((List.range b.h.size).set 0 ((fyPrefix b x 1).perm.getD 0 0)).set
      ((fyPrefix b x 1).perm.getD 0 0) 0 = (fyPrefix b x 1).perm := by
  rw [fyPrefix_one_getD_zero hpos, fyPrefix_one, permSwap_eq]
  simp only [swapOffset, UInt32.toNat_zero, Nat.sub_zero]
  split_ifs with h
  · have hlt := Nat.mod_lt
      (crushHash32_3 b.h.hash (UInt32.ofInt x) (UInt32.ofInt b.id) 0).toNat hpos
    simp only [swapEntries, Nat.zero_add, List.getD_eq_getElem?_getD, List.getElem?_range hpos,
      List.getElem?_range hlt, Option.getD_some]
    exact List.set_comm _ _ (Ne.symm h.2)
  · rcases not_and_or.1 h with h | h
    · have hone : b.h.size = 1 := by omega
      simp [hone, Nat.mod_one]
    · simp only [ne_eq, not_not] at h
      rw [h, range_set_zero, range_set_zero]

end Shortcut

/-! ### The cache -/

/-- What `bucket_perm_choose(x, r)` is meant to return: the item at position `r % size` of
`pi_x`, `r` read as the `unsigned` that `r % bucket->size` takes. -/
def permChoice (b : MapBucket) (x r : ℤ) : ℤ :=
  b.h.items.getD ((fisherYates b x).getD ((UInt32.ofInt r).toNat % b.h.size) 0) 0

/-- What the work area of a bucket holds between calls: `size` entries, and for a nonzero
`perm_n` the swaps made so far for the input `perm_x`. The magic `0xffff` vouches for `perm[0]`
alone. -/
structure PermCache (b : MapBucket) (w : WorkBucket) : Prop where
  length : w.perm.length = b.h.size
  shortcut : w.permN = 0xffff →
    w.perm.getD 0 0 = (fyPrefix b (w.permX.toNat : ℤ) 1).perm.getD 0 0
  swaps : w.permN ≠ 0 → w.permN ≠ 0xffff →
    w.permN.toNat ≤ b.h.size ∧ w.perm = (fyPrefix b (w.permX.toNat : ℤ) w.permN.toNat).perm

section Cache

variable {b : MapBucket} {x : ℤ} {w : WorkBucket} {k pr : ℕ}

theorem eq_fyPrefix (hx : w.permX = UInt32.ofInt x) (hn : w.permN = UInt32.ofNat k)
    (hp : w.perm = (fyPrefix b x k).perm) : w = fyPrefix b x k := by
  obtain ⟨permX, permN, perm⟩ := w
  dsimp only at hx hn hp
  rw [hx, hn, hp, ← fyPrefix_permX k, ← fyPrefix_permN k]

theorem permCache_fyPrefix (hk : 1 ≤ k) (hkn : k ≤ b.h.size) (hn : b.h.size < 2 ^ 32) :
    PermCache b (fyPrefix b x k) where
  length := fyPrefix_length k
  shortcut _ := by
    rw [fyPrefix_permX, fyPrefix_permX_toNat, fyPrefix_getD_of_lt Nat.one_pos hk (by omega)]
  swaps _ _ := by
    rw [fyPrefix_permX, fyPrefix_permX_toNat, toNat_fyPrefix_permN (by omega)]
    exact ⟨hkn, rfl⟩

/-- From `k` swaps made, `permFinish` makes those up to `pr` and reads entry `pr` of `pi_x`. -/
theorem permFinish_fyPrefix (hkn : k ≤ b.h.size) (hpr : pr < b.h.size)
    (hn : b.h.size < 2 ^ 32) :
    permFinish b x pr (fyPrefix b x k) =
      (b.h.items.getD ((fisherYates b x).getD pr 0) 0, fyPrefix b x (k + (pr + 1 - k))) := by
  unfold permFinish
  rw [toNat_fyPrefix_permN (by omega), iterate_fyPrefix, fisherYates,
    fyPrefix_getD_of_lt (show pr < k + (pr + 1 - k) by omega) (by omega) hn]

/-- One call: from a work area that keeps the invariant, `bucket_perm_choose` returns the entry
of `pi_x` and leaves a work area that keeps it. -/
theorem PermCache.call (hpos : 0 < b.h.size) (hn : b.h.size < 2 ^ 32)
    (hw : PermCache b w) (x r : ℤ) :
    (bucketPermChoose b w x r).1 = permChoice b x r ∧
      PermCache b (bucketPermChoose b w x r).2 := by
  have hpr : (UInt32.ofInt r).toNat % b.h.size < b.h.size := Nat.mod_lt _ hpos
  unfold bucketPermChoose permChoice
  dsimp only
  split_ifs with hnew hzero hmagic
  · have hfirst : (fisherYates b x).getD 0 0 =
        (crushHash32_3 b.h.hash (UInt32.ofInt x) (UInt32.ofInt b.id) 0).toNat % b.h.size := by
      rw [fisherYates, fyPrefix_getD_of_lt Nat.one_pos hpos hn, fyPrefix_one_getD_zero hpos]
    refine ⟨by rw [hzero, hfirst], ⟨by simp [hw.length], fun _ => ?_, fun _ h => absurd rfl h⟩⟩
    dsimp only
    rw [fyPrefix_permX_toNat, fyPrefix_one_getD_zero hpos]
    simp [List.getD_eq_getElem?_getD, hw.length, hpos]
  · have hfin := permFinish_fyPrefix (x := x) (Nat.zero_le _) hpr hn
    rw [fyPrefix, Function.iterate_zero, id, Nat.zero_add, Nat.sub_zero] at hfin
    rw [hfin]
    exact ⟨rfl, permCache_fyPrefix (by omega) (by omega) hn⟩
  · have hx : w.permX = UInt32.ofInt x := by
      simp only [not_or, ne_eq, not_not] at hnew
      exact hnew.1
    have hstart :
        { w with
          permN := 1
          perm := ((List.range b.h.size).set 0 (w.perm.getD 0 0)).set (w.perm.getD 0 0) 0 } =
        fyPrefix b x 1 := by
      refine eq_fyPrefix ?_ rfl ?_
      · exact hx
      · dsimp only
        rw [hw.shortcut hmagic, hx, fyPrefix_permX_toNat, cleanup_eq_fyPrefix_one hpos]
    rw [hstart, permFinish_fyPrefix (show 1 ≤ b.h.size from hpos) hpr hn]
    exact ⟨rfl, permCache_fyPrefix (by omega) (by omega) hn⟩
  · simp only [not_or, ne_eq, not_not] at hnew
    obtain ⟨hle, hperm⟩ := hw.swaps hnew.2 hmagic
    have hcur : w = fyPrefix b x w.permN.toNat := by
      apply eq_fyPrefix hnew.1 (by simp)
      rw [hperm, hnew.1, fyPrefix_permX_toNat]
    rw [hcur, permFinish_fyPrefix hle hpr hn]
    refine ⟨rfl, permCache_fyPrefix ?_ (by omega) hn⟩
    have : w.permN.toNat ≠ 0 := fun h0 => hnew.2 (UInt32.toNat_inj.1 (by simpa using h0))
    omega

theorem PermReachable.permCache (hpos : 0 < b.h.size) (hn : b.h.size < 2 ^ 32)
    (h : PermReachable b w) : PermCache b w := by
  induction h with
  | init hzero hlen =>
    refine ⟨hlen, fun hmagic => ?_, fun hne => absurd hzero hne⟩
    rw [hzero] at hmagic
    exact absurd hmagic (by decide)
  | call x r _ ih => exact (ih.call hpos hn x r).2

theorem fisherYates_perm (b : MapBucket) (x : ℤ) :
    (fisherYates b x).Perm (List.range b.h.size) :=
  fyPrefix_perm _

/-- A position below the size is its own `(unsigned)r % size`. -/
theorem ofInt_natCast_mod {r n : ℕ} (hr : r < n) (hn : n < 2 ^ 32) :
    (UInt32.ofInt (r : ℤ)).toNat % n = r := by
  rw [UInt32.ofInt, Int.emod_eq_of_lt (by omega) (by omega), Int.toNat_natCast,
    UInt32.toNat_ofNat_of_lt' (by simp only [UInt32.size]; omega), Nat.mod_eq_of_lt hr]

theorem getD_inj_of_nodup {α : Type} {l : List α} {d : α} (hl : l.Nodup) {i j : ℕ}
    (hi : i < l.length) (hj : j < l.length) (h : l.getD i d = l.getD j d) : i = j := by
  rw [List.getD_eq_getElem _ _ hi, List.getD_eq_getElem _ _ hj] at h
  exact hl.getElem_inj_iff.1 h

/-- Distinct positions of `pi_x` hold distinct items of a bucket whose items are distinct. -/
theorem permChoice_ne (hlen : b.h.items.length = b.h.size) (hnodup : b.h.items.Nodup)
    {i j : ℕ} (hi : i < b.h.size) (hj : j < b.h.size) (hij : i ≠ j) :
    b.h.items.getD ((fisherYates b x).getD i 0) 0 ≠ b.h.items.getD ((fisherYates b x).getD j 0) 0 := by
  have hperm := fisherYates_perm b x
  have hfy : (fisherYates b x).length = b.h.size := by simp [hperm.length_eq]
  have hmem : ∀ k < b.h.size, (fisherYates b x).getD k 0 < b.h.size := fun k hk => by
    rw [List.getD_eq_getElem _ _ (by omega)]
    exact List.mem_range.1 (hperm.subset (List.getElem_mem _))
  intro h
  have hpos := getD_inj_of_nodup hnodup (by have := hmem i hi; omega) (by have := hmem j hj; omega) h
  exact hij (getD_inj_of_nodup (hperm.nodup_iff.2 List.nodup_range) (by omega) (by omega) hpos)

end Cache

/-- Whatever earlier calls on the bucket left in its work area, `bucket_perm_choose(x, r)`
returns the item at position `r % size` of the Fisher-Yates permutation `pi_x`, which is what a
fresh work area gives; and for distinct items, positions `0 .. size - 1` give distinct items. -/
theorem bucketPermChoose_agrees_fresh (b : MapBucket) (hpos : 0 < b.h.size)
    (hsize : b.h.size < 2 ^ 32) {w : WorkBucket} (hw : PermReachable b w) (x r : ℤ) :
    (bucketPermChoose b w x r).1 =
        b.h.items.getD ((fisherYates b x).getD ((UInt32.ofInt r).toNat % b.h.size) 0) 0 ∧
      (bucketPermChoose b w x r).1 = (bucketPermChoose b (freshWork b) x r).1 ∧
      (b.h.items.length = b.h.size → b.h.items.Nodup →
        ∀ (r₁ r₂ : ℕ) {w₁ w₂ : WorkBucket}, PermReachable b w₁ → PermReachable b w₂ →
          r₁ < b.h.size → r₂ < b.h.size → r₁ ≠ r₂ →
          (bucketPermChoose b w₁ x r₁).1 ≠ (bucketPermChoose b w₂ x r₂).1) := by
  have hfresh : PermReachable b (freshWork b) := .init rfl (by simp [freshWork])
  have hcall := fun {w : WorkBucket} (hw : PermReachable b w) (r : ℤ) =>
    ((hw.permCache hpos hsize).call hpos hsize x r).1
  refine ⟨hcall hw r, by rw [hcall hw r, hcall hfresh r], ?_⟩
  intro hlen hnodup r₁ r₂ w₁ w₂ hw₁ hw₂ h₁ h₂ hne
  rw [hcall hw₁, hcall hw₂, permChoice, permChoice, ofInt_natCast_mod h₁ hsize,
    ofInt_natCast_mod h₂ hsize]
  exact permChoice_ne hlen hnodup h₁ h₂ hne

/-- A uniform bucket of three items. -/
def threeItems : MapBucket := ⟨-2, 1, ⟨crushHashRjenkins1, 3, [5, 7, 9]⟩, .uniform⟩

/-- After the shortcut call for `x = 1`, `r = 0`, a call for `r = 2` unfolds the cache. -/
theorem bucketPermChoose_agrees_fresh_threeItems :
    0 < threeItems.h.size ∧ threeItems.h.size < 2 ^ 32 ∧
      PermReachable threeItems (bucketPermChoose threeItems (freshWork threeItems) 1 0).2 ∧
      ((bucketPermChoose threeItems (bucketPermChoose threeItems (freshWork threeItems) 1 0).2 1 2).1 =
          threeItems.h.items.getD ((fisherYates threeItems 1).getD
            ((UInt32.ofInt 2).toNat % threeItems.h.size) 0) 0 ∧
        (bucketPermChoose threeItems (bucketPermChoose threeItems (freshWork threeItems) 1 0).2 1 2).1 =
          (bucketPermChoose threeItems (freshWork threeItems) 1 2).1 ∧
        (threeItems.h.items.length = threeItems.h.size → threeItems.h.items.Nodup →
          ∀ (r₁ r₂ : ℕ) {w₁ w₂ : WorkBucket}, PermReachable threeItems w₁ →
            PermReachable threeItems w₂ → r₁ < threeItems.h.size → r₂ < threeItems.h.size →
            r₁ ≠ r₂ → (bucketPermChoose threeItems w₁ 1 r₁).1 ≠
              (bucketPermChoose threeItems w₂ 1 r₂).1)) := by
  have hw : PermReachable threeItems (bucketPermChoose threeItems (freshWork threeItems) 1 0).2 :=
    .call 1 0 (.init rfl rfl)
  exact ⟨by decide, by decide, hw,
    bucketPermChoose_agrees_fresh threeItems (by decide) (by decide) hw 1 2⟩

/-- Position 1 for `x = 1`, read through the cache left by the shortcut, as from scratch. -/
example : (bucketPermChoose threeItems (bucketPermChoose threeItems (freshWork threeItems) 1 0).2
      1 1).1 = 5 ∧
    (bucketPermChoose threeItems (freshWork threeItems) 1 1).1 = 5 := by
  decide +kernel

end Lunule.Crush
