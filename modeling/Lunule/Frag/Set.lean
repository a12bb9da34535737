import Lunule.Frag.Cells

/-!
`fragset_t` over canonical frags. A merge of `simplify` keeps the frags canonical and the hash
values they cover, and shrinks the set; a pass that merges nothing has visited every frag and
found no sibling pair. So `simplify` ends, leaves no two siblings in the set, and `contains`
then tells whether the set covers every hash value of a frag.
-/

namespace Lunule.Frag

open BitPrefix

namespace FragsetT

/-- Some frag of the set contains the hash value. -/
def Covers (s : Finset FragT) (v : UInt32) : Prop := ∃ f ∈ s, f.contains v = true

def AllCanonical (s : Finset FragT) : Prop := ∀ f ∈ s, f.Canonical

/-- No frag of the set passes the merge test of `simplify`: the set holds no two siblings. -/
def Simple (s : Finset FragT) : Prop := ∀ p ∈ s, ¬ (p.isRoot = false ∧ p.getSibling ∈ s)

theorem mem_after {s : Finset FragT} {p q : FragT} : q ∈ after s p ↔ q ∈ s ∧ p < q := by
  simp [after]

theorem lt_iff_toNat_lt {p q : FragT} : p < q ↔ p.enc.toNat < q.enc.toNat := Iff.rfl

/-! ### One merge -/

section Merge

variable {s : Finset FragT} {c : Cell 24} (h : 0 < c.bits)

/-- The set after a merge at the frag of `c`. -/
theorem mem_merge {f : FragT} :
    f ∈ (Insert.insert (ofCell c.parent) (s.erase (ofCell (c.sibling h)))).erase (ofCell c) ↔
      f ≠ ofCell c ∧ (f = ofCell c.parent ∨ f ≠ ofCell (c.sibling h) ∧ f ∈ s) := by
  simp

theorem allCanonical_merge (hs : AllCanonical s) :
    AllCanonical ((Insert.insert (ofCell c.parent) (s.erase (ofCell (c.sibling h)))).erase (ofCell c)) := by
  intro f hf
  rcases ((mem_merge h).1 hf).2 with rfl | ⟨-, hf⟩
  · exact canonical_ofCell _
  · exact hs f hf

theorem card_merge_lt (hc : ofCell c ∈ s) (hsib : ofCell (c.sibling h) ∈ s) :
    ((Insert.insert (ofCell c.parent) (s.erase (ofCell (c.sibling h)))).erase (ofCell c)).card <
      s.card := by
  have hne : ofCell c ≠ ofCell (c.sibling h) :=
    fun he => c.sibling_ne h (ofCell_injective he).symm
  have hmem : ofCell c ∈ Insert.insert (ofCell c.parent) (s.erase (ofCell (c.sibling h))) :=
    Finset.mem_insert_of_mem (Finset.mem_erase.2 ⟨hne, hc⟩)
  have hins := Finset.card_insert_le (ofCell c.parent) (s.erase (ofCell (c.sibling h)))
  have hera := Finset.card_erase_of_mem hsib
  have hpos := Finset.card_pos.2 ⟨_, hc⟩
  rw [Finset.card_erase_of_mem hmem]
  omega

/-- The parent covers what the frag and its sibling cover, so the merge covers what the set
covers. -/
theorem covers_merge (hc : ofCell c ∈ s) (hsib : ofCell (c.sibling h) ∈ s) (v : UInt32) :
    Covers ((Insert.insert (ofCell c.parent) (s.erase (ofCell (c.sibling h)))).erase (ofCell c)) v ↔
      Covers s v := by
  have hparent : (ofCell c.parent).contains v = true ↔
      (ofCell c).contains v = true ∨ (ofCell (c.sibling h)).contains v = true := by
    rw [contains_ofCell, contains_ofCell, contains_ofCell]
    exact Cell.mem_parent_iff h
  have hpc : ofCell c.parent ≠ ofCell c := fun he => c.parent_ne h (ofCell_injective he)
  constructor
  · rintro ⟨f, hf, hfv⟩
    rcases ((mem_merge h).1 hf).2 with rfl | ⟨-, hf⟩
    · rcases hparent.1 hfv with hv | hv
      · exact ⟨_, hc, hv⟩
      · exact ⟨_, hsib, hv⟩
    · exact ⟨f, hf, hfv⟩
  · rintro ⟨f, hf, hfv⟩
    by_cases hgone : f = ofCell c ∨ f = ofCell (c.sibling h)
    · refine ⟨ofCell c.parent, (mem_merge h).2 ⟨hpc, .inl rfl⟩, hparent.2 ?_⟩
      rcases hgone with rfl | rfl
      · exact .inl hfv
      · exact .inr hfv
    · rw [not_or] at hgone
      exact ⟨f, (mem_merge h).2 ⟨hgone.1, .inr ⟨hgone.2, hf⟩⟩, hfv⟩

end Merge

/-! ### The inner loop -/

/-- What a stretch of `simplify`'s inner loop does to a set of canonical frags, from the set
`s` with the pass's flag `clean` to the result `r`: the frags stay canonical, the covered hash
values stay the same, and the set has shrunk once a merge has cleared the flag. -/
structure PassResult (s : Finset FragT) (clean : Bool) (r : Finset FragT × Bool) : Prop where
  canonical : AllCanonical r.1
  covers : ∀ v, Covers r.1 v ↔ Covers s v
  card_le : r.1.card ≤ s.card
  card_lt : clean = true → r.2 = false → r.1.card < s.card

theorem PassResult.refl {s : Finset FragT} (hs : AllCanonical s) (clean : Bool) :
    PassResult s clean (s, clean) :=
  ⟨hs, fun _ => Iff.rfl, le_rfl, fun h h' => by simp [h] at h'⟩

theorem PassResult.trans {s : Finset FragT} {clean : Bool} {r r' : Finset FragT × Bool}
    (h₁ : PassResult s clean r) (h₂ : PassResult r.1 r.2 r') : PassResult s clean r' where
  canonical := h₂.canonical
  covers v := (h₂.covers v).trans (h₁.covers v)
  card_le := h₂.card_le.trans h₁.card_le
  card_lt hc hr' := by
    cases hr : r.2
    · exact lt_of_le_of_lt h₂.card_le (h₁.card_lt hc hr)
    · exact lt_of_lt_of_le (h₂.card_lt hr hr') h₁.card_le

/-- One step of the inner loop, at a frag of the set. -/
theorem passResult_passStep {s : Finset FragT} (hs : AllCanonical s) {p : FragT} (hp : p ∈ s)
    (clean : Bool) : PassResult s clean (passStep s clean p) := by
  unfold passStep
  split_ifs with hm
  · obtain ⟨c, rfl⟩ := (hs p hp).exists_ofCell
    have h := (isRoot_ofCell_eq_false c).1 hm.1
    have hsib := hm.2
    rw [getSibling_ofCell c h] at hsib ⊢
    rw [parent_ofCell c h]
    exact ⟨allCanonical_merge h hs, covers_merge h hp hsib, (card_merge_lt h hp hsib).le,
      fun _ _ => card_merge_lt h hp hsib⟩
  · exact PassResult.refl hs clean

theorem min'_after_mem {s : Finset FragT} {p : FragT} (h : (after s p).Nonempty) :
    (after s p).min' h ∈ s :=
  (Iff.mp mem_after (Finset.min'_mem _ h)).1

/-- The inner loop from a frag of the set, step by step. -/
theorem passResult_simplifyPass :
    ∀ (fuel : ℕ) (s : Finset FragT) (clean : Bool) (p : FragT), AllCanonical s → p ∈ s →
      PassResult s clean (simplifyPass fuel s clean p) := by
  intro fuel
  induction fuel with
  | zero => exact fun s clean _ hs _ => PassResult.refl hs clean
  | succ fuel ih =>
    intro s clean p hs hp
    have hstep := passResult_passStep hs hp clean
    rw [simplifyPass]
    split_ifs with hne
    · exact hstep.trans (ih _ _ _ hstep.canonical (min'_after_mem hne))
    · exact hstep

theorem passStep_snd_false (s : Finset FragT) (p : FragT) : (passStep s false p).2 = false := by
  unfold passStep
  split_ifs <;> rfl

/-- Once a merge has cleared the flag, the pass is not clean. -/
theorem simplifyPass_snd_false :
    ∀ (fuel : ℕ) (s : Finset FragT) (p : FragT), (simplifyPass fuel s false p).2 = false := by
  intro fuel
  induction fuel with
  | zero => exact fun _ _ => rfl
  | succ fuel ih =>
    intro s p
    rw [simplifyPass]
    split_ifs
    · rw [passStep_snd_false]
      exact ih _ _
    · exact passStep_snd_false s p

/-- A clean pass from `p` changes nothing and has found no frag from `p` on with its sibling in
the set. The fuel covers the words from `p` on: the iterator's frag rises at each step. -/
theorem simplifyPass_clean :
    ∀ (fuel : ℕ) (s : Finset FragT) (p : FragT), 2 ^ 32 ≤ fuel + p.enc.toNat →
      (simplifyPass fuel s true p).2 = true →
      (simplifyPass fuel s true p).1 = s ∧
        ∀ q ∈ s, p ≤ q → ¬ (q.isRoot = false ∧ q.getSibling ∈ s) := by
  intro fuel
  induction fuel with
  | zero =>
    intro s p hfuel _
    have := p.enc.toNat_lt
    omega
  | succ fuel ih =>
    intro s p hfuel hclean
    rw [simplifyPass] at hclean ⊢
    by_cases hm : p.isRoot = false ∧ p.getSibling ∈ s
    · have hstep : passStep s true p = ((Insert.insert p.parent (s.erase p.getSibling)).erase p, false) :=
        if_pos hm
      rw [hstep] at hclean
      split_ifs at hclean with hne
      rw [simplifyPass_snd_false] at hclean
      exact absurd hclean Bool.false_ne_true
    · have hstep : passStep s true p = (s, true) := if_neg hm
      rw [hstep] at hclean ⊢
      dsimp only at hclean ⊢
      split_ifs at hclean ⊢ with hne
      · have hlt := (Iff.mp mem_after (Finset.min'_mem _ hne)).2
        rw [lt_iff_toNat_lt] at hlt
        obtain ⟨hs, hq⟩ := ih s _ (by omega) hclean
        refine ⟨hs, fun q hq' hpq => ?_⟩
        rcases eq_or_lt_of_le hpq with rfl | hpq
        · exact hm
        · exact hq q hq' (Finset.min'_le _ _ (Iff.mpr mem_after ⟨hq', hpq⟩))
      · refine ⟨rfl, fun q hq' hpq => ?_⟩
        rcases eq_or_lt_of_le hpq with rfl | hpq
        · exact hm
        · exact absurd ⟨q, Iff.mpr mem_after ⟨hq', hpq⟩⟩ hne

/-! ### The outer loop -/

/-- A pass from `begin()`: a clean one shows the set simple. -/
theorem simplifyOnce_spec {s : Finset FragT} (hs : AllCanonical s) :
    PassResult s true (simplifyOnce s) ∧
      ((simplifyOnce s).2 = true → (simplifyOnce s).1 = s ∧ Simple s) := by
  unfold simplifyOnce
  split_ifs with hne
  · refine ⟨passResult_simplifyPass _ _ _ _ hs (Finset.min'_mem _ hne), fun hclean => ?_⟩
    obtain ⟨hsame, hq⟩ := simplifyPass_clean _ s _ (Nat.le_add_right _ _) hclean
    exact ⟨hsame, fun q hq' => hq q hq' (Finset.min'_le _ _ hq')⟩
  · refine ⟨PassResult.refl hs true, fun _ => ⟨rfl, fun q hq' => ?_⟩⟩
    exact absurd ⟨q, hq'⟩ hne

/-- Every pass that is not clean shrinks the set, so more passes than frags end the loop. -/
theorem simplifyLoop_spec :
    ∀ (n : ℕ) (s : Finset FragT), s.card < n → AllCanonical s →
      ∃ s', simplifyLoop n s = some s' ∧ AllCanonical s' ∧ Simple s' ∧
        ∀ v, Covers s' v ↔ Covers s v := by
  intro n
  induction n with
  | zero => exact fun _ h => absurd h (Nat.not_lt_zero _)
  | succ n ih =>
    intro s hcard hs
    obtain ⟨hpass, hclean⟩ := simplifyOnce_spec hs
    rw [simplifyLoop]
    cases hr : (simplifyOnce s).2
    · obtain ⟨s', hrun, hs', hsimple, hcov⟩ :=
        ih _ (by have := hpass.card_lt rfl hr; omega) hpass.canonical
      exact ⟨s', hrun, hs', hsimple, fun v => (hcov v).trans (hpass.covers v)⟩
    · obtain ⟨hsame, hsimple⟩ := hclean hr
      exact ⟨s, by rw [if_pos rfl, hsame], hs, hsimple, fun _ => Iff.rfl⟩

theorem simplify_spec {fs : FragsetT} (hs : AllCanonical fs.set) :
    ∃ fs', fs.simplify = some fs' ∧ AllCanonical fs'.set ∧ Simple fs'.set ∧
      ∀ v, Covers fs'.set v ↔ Covers fs.set v := by
  obtain ⟨s', hrun, hs', hsimple, hcov⟩ := simplifyLoop_spec _ fs.set (Nat.lt_succ_self _) hs
  exact ⟨⟨s'⟩, by rw [simplify, hrun]; rfl, hs', hsimple, hcov⟩

theorem insert_spec {fs : FragsetT} (hs : AllCanonical fs.set) {f : FragT} (hf : f.Canonical) :
    ∃ fs', fs.insert f = some fs' ∧ AllCanonical fs'.set ∧ Simple fs'.set ∧
      ∀ v, Covers fs'.set v ↔ Covers fs.set v ∨ f.contains v = true := by
  have hs' : AllCanonical (FragsetT.mk (Insert.insert f fs.set)).set := by
    intro g hg
    rcases Finset.mem_insert.1 hg with rfl | hg
    · exact hf
    · exact hs g hg
  obtain ⟨fs', hrun, hcan, hsimple, hcov⟩ := simplify_spec hs'
  refine ⟨fs', hrun, hcan, hsimple, fun v => (hcov v).trans ?_⟩
  simp only [Covers, Finset.mem_insert, exists_eq_or_imp]
  exact or_comm

/-- A run of inserts from a simple set of canonical frags. -/
theorem foldlM_insert_spec :
    ∀ (fs : List FragT) (s₀ : FragsetT), AllCanonical s₀.set → Simple s₀.set →
      (∀ f ∈ fs, f.Canonical) →
      ∃ S, fs.foldlM insert s₀ = some S ∧ AllCanonical S.set ∧ Simple S.set ∧
        ∀ v, Covers S.set v ↔ Covers s₀.set v ∨ ∃ f ∈ fs, f.contains v = true := by
  intro fs
  induction fs with
  | nil => exact fun s₀ hs hsimple _ => ⟨s₀, rfl, hs, hsimple, fun v => by simp⟩
  | cons f fs ih =>
    intro s₀ hs _ hfs
    obtain ⟨s₁, hins, hs₁, hsimple₁, hcov₁⟩ := insert_spec hs (hfs f (List.mem_cons_self ..))
    obtain ⟨S, hrun, hS, hsimple, hcov⟩ :=
      ih s₁ hs₁ hsimple₁ fun g hg => hfs g (List.mem_cons_of_mem _ hg)
    refine ⟨S, by rw [List.foldlM_cons, hins]; exact hrun, hS, hsimple, fun v => ?_⟩
    rw [hcov, hcov₁]
    simp only [List.mem_cons, exists_eq_or_imp]
    exact or_assoc

/-! ### contains -/

/-- The lookup loop finds a frag of the set above the cell, walking up one bit per step. -/
theorem containsLoop_ofCell_iff (s : Finset FragT) :
    ∀ (n : ℕ) (d : Cell 24), d.bits ≤ n →
      (containsLoop s n (ofCell d) = true ↔ ∃ c, ofCell c ∈ s ∧ c.Above d) := by
  intro n
  induction n with
  | zero =>
    intro d hd
    have hd0 : d.bits = 0 := by omega
    rw [containsLoop]
    by_cases hmem : ofCell d ∈ s
    · simp only [hmem, if_true, true_iff]
      exact ⟨d, hmem, Cell.Above.refl d⟩
    · have hbits : (ofCell d).bits = 0 := by
        rw [← UInt32.toNat_inj, bits_ofCell, hd0, UInt32.toNat_zero]
      simp only [hmem, hbits, if_false, if_true, Bool.false_eq_true, false_iff]
      rintro ⟨c, hc, hab⟩
      exact hmem (hab.eq_of_bits_eq_zero hd0 ▸ hc)
  | succ n ih =>
    intro d hd
    rw [containsLoop]
    by_cases hmem : ofCell d ∈ s
    · simp only [hmem, if_true, true_iff]
      exact ⟨d, hmem, Cell.Above.refl d⟩
    · by_cases hd0 : d.bits = 0
      · have hbits : (ofCell d).bits = 0 := by
          rw [← UInt32.toNat_inj, bits_ofCell, hd0, UInt32.toNat_zero]
        simp only [hmem, hbits, if_false, if_true, Bool.false_eq_true, false_iff]
        rintro ⟨c, hc, hab⟩
        exact hmem (hab.eq_of_bits_eq_zero hd0 ▸ hc)
      · have hpos : 0 < d.bits := Nat.pos_of_ne_zero hd0
        have hbits : (ofCell d).bits ≠ 0 := by
          rw [ne_eq, ← UInt32.toNat_inj, bits_ofCell, UInt32.toNat_zero]
          exact hd0
        simp only [hmem, hbits, if_false]
        rw [parent_ofCell d hpos, ih d.parent (by simp only [Cell.bits_parent]; omega)]
        constructor
        · rintro ⟨c, hc, hab⟩
          exact ⟨c, hc, (Cell.above_iff hpos).2 (.inr hab)⟩
        · rintro ⟨c, hc, hab⟩
          rcases (Cell.above_iff hpos).1 hab with rfl | hab
          · exact absurd hc hmem
          · exact ⟨c, hc, hab⟩

theorem contains_ofCell_iff (s : Finset FragT) (d : Cell 24) :
    contains ⟨s⟩ (ofCell d) = true ↔ ∃ c, ofCell c ∈ s ∧ c.Above d := by
  rw [contains, bits_ofCell]
  exact containsLoop_ofCell_iff s d.bits d le_rfl

/-- In a simple set of canonical frags, `contains` finds a frag exactly when the set covers
every hash value of the frag. -/
theorem contains_iff_covers {s : Finset FragT} (hs : AllCanonical s) (hsimple : Simple s)
    {g : FragT} (hg : g.Canonical) :
    contains ⟨s⟩ g = true ↔ ∀ v, g.contains v = true → Covers s v := by
  obtain ⟨d, rfl⟩ := hg.exists_ofCell
  rw [contains_ofCell_iff]
  constructor
  · rintro ⟨c, hc, hab⟩ v hv
    exact ⟨ofCell c, hc, (contains_ofCell c v).2 (hab.mem ((contains_ofCell d v).1 hv))⟩
  · intro hcov
    have hS : ∀ c ∈ {c : Cell 24 | ofCell c ∈ s}, ∀ h : 0 < c.bits,
        c.sibling h ∉ {c : Cell 24 | ofCell c ∈ s} := by
      intro c hc h hsib
      have hsib' : (ofCell c).getSibling ∈ s := by
        rw [getSibling_ofCell c h]
        exact hsib
      exact hsimple _ hc ⟨(isRoot_ofCell_eq_false c).2 h, hsib'⟩
    refine Cell.exists_above_of_covers hS fun v hv hmem => ?_
    have hword : (UInt32.ofNatLT v (lt_trans hv (by decide))).toNat % 2 ^ 24 = v := by
      rw [UInt32.toNat_ofNatLT, Nat.mod_eq_of_lt hv]
    obtain ⟨f, hf, hfv⟩ := hcov _ ((contains_ofCell d _).2 (by rw [hword]; exact hmem))
    obtain ⟨c, rfl⟩ := (hs f hf).exists_ofCell
    exact ⟨c, hf, by rw [← hword]; exact (contains_ofCell c _).1 hfv⟩

end FragsetT

open FragsetT

/-- Inserting canonical frags one by one into an empty `fragset_t`: every `simplify` ends,
the set never holds two siblings, and `contains` answers whether the inserted frags cover
every hash value of the frag asked about. -/
theorem fragset_insert_coverage (fs : List FragT) (hfs : ∀ f ∈ fs, f.Canonical) :
    ∃ S, fs.foldlM FragsetT.insert ⟨∅⟩ = some S ∧
      (∀ p ∈ S.set, p.isRoot = false → p.getSibling ∉ S.set) ∧
      ∀ g : FragT, g.Canonical →
        (S.contains g = true ↔ ∀ v : UInt32, g.contains v = true → ∃ f ∈ fs, f.contains v = true) := by
  obtain ⟨S, hrun, hS, hsimple, hcov⟩ :=
    foldlM_insert_spec fs ⟨∅⟩ (fun _ h => absurd h (Finset.notMem_empty _))
      (fun _ h => absurd h (Finset.notMem_empty _)) hfs
  refine ⟨S, hrun, fun p hp hroot hsib => hsimple p hp ⟨hroot, hsib⟩, fun g hg => ?_⟩
  rw [contains_iff_covers hS hsimple hg]
  refine forall_congr' fun v => imp_congr_right fun _ => (hcov v).trans ?_
  simp [Covers]

/-- The two halves of the hash space, inserted one after the other. -/
theorem halves_coverage :
    (∀ f ∈ [FragT.make 0 1, FragT.make 0x800000 1], f.Canonical) ∧
      ∃ S, [FragT.make 0 1, FragT.make 0x800000 1].foldlM FragsetT.insert ⟨∅⟩ = some S ∧
        (∀ p ∈ S.set, p.isRoot = false → p.getSibling ∉ S.set) ∧
        ∀ g : FragT, g.Canonical →
          (S.contains g = true ↔ ∀ v : UInt32, g.contains v = true →
            ∃ f ∈ [FragT.make 0 1, FragT.make 0x800000 1], f.contains v = true) :=
  ⟨by decide, fragset_insert_coverage _ (by decide)⟩

/-- A frag read back as a raw word need not be canonical. The word `0x01000001` says one bit
with a stray value bit below the prefix, so it contains no hash value; `simplify` still merges
it with the right half `0x01800000` into the root, and `contains` then reports the root
covered though the hash value 0 lies in neither frag. -/
theorem fragset_noncanonical_overcover :
    (∀ f ∈ [FragT.mk 0x01000001, FragT.mk 0x01800000], f.bits.toNat ≤ 24) ∧
      ∃ S, [FragT.mk 0x01000001, FragT.mk 0x01800000].foldlM FragsetT.insert ⟨∅⟩ = some S ∧
        S.contains ⟨0⟩ = true ∧ (FragT.mk 0).contains 0 = true ∧
        ∀ f ∈ [FragT.mk 0x01000001, FragT.mk 0x01800000], f.contains 0 = false :=
  ⟨by decide, _, rfl, by decide, by decide, by decide⟩

end Lunule.Frag
