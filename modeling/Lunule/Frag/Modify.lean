import Lunule.Frag.Leaves

/-!
The modifiers of `fragtree_t` keep a fragtree valid. `split` of a leaf puts the frags of its
split in its place; `merge` of a frag whose children are not split makes it a leaf again; and
`try_assimilate_children`, which both run when they simplify, writes the splits differently but
keeps every leaf. Whether a split simplifies changes no leaf.
-/

namespace Lunule.Frag

open BitPrefix BitPrefix.Cell

namespace FragtreeT

variable {tree : FragtreeT}

/-! ## The map under assignment and erase -/

theorem valid_clear (tree : FragtreeT) : tree.clear.Valid where
  sorted := List.Pairwise.nil
  canonical _ h := absurd h List.not_mem_nil
  pos _ h := absurd h List.not_mem_nil
  isTree := ⟨fun _ h => absurd h (lt_irrefl 0), fun _ h => absurd h (lt_irrefl 0)⟩

/-- A frag split in a keyed fragtree is canonical. -/
theorem Keyed.canonical_of_pos (hk : tree.Keyed) {x : FragT} (hx : 0 < tree.getSplit x) :
    x.Canonical := by
  unfold getSplit at hx
  cases h : @OrdMap.find? FragT ℕ fragKeyEq tree.splits x with
  | none =>
    rw [h] at hx
    exact absurd hx (lt_irrefl 0)
  | some b => exact hk.canonical (x, b) (@OrdMap.mem_of_find? FragT ℕ fragKeyEq _ _ _ h)

/-- A map with some of the entries of a keyed one is keyed. -/
theorem Keyed.of_sublist (hk : tree.Keyed) {tree' : FragtreeT}
    (hs : tree'.splits.Sublist tree.splits) : tree'.Keyed where
  sorted := hk.sorted.sublist hs
  canonical p hp := hk.canonical p (hs.subset hp)
  pos p hp := hk.pos p (hs.subset hp)

theorem Keyed.eraseSplit (hk : tree.Keyed) (x : FragT) : (tree.eraseSplit x).Keyed :=
  hk.of_sublist (@OrdMap.erase_sublist FragT ℕ fragKeyEq _ _)

/-- Assigning a positive split at a canonical frag keeps a map keyed. -/
theorem Keyed.setSplit (hk : tree.Keyed) {x : FragT} (hx : x.Canonical) {b : ℕ} (hb : 0 < b) :
    (tree.setSplit x b).Keyed where
  sorted := hk.sorted.set x b
  canonical p hp := by
    rcases OrdMap.mem_set hp with rfl | hp
    · exact hx
    · exact hk.canonical p hp
  pos := OrdMap.forall_set hk.pos x hb

/-- A map with some of the entries of a valid one is valid when its splits form a tree. -/
theorem Valid.of_sublist (ht : tree.Valid) {tree' : FragtreeT}
    (hs : tree'.splits.Sublist tree.splits) (hT : IsTree tree'.view) : tree'.Valid :=
  ⟨ht.toKeyed.of_sublist hs, hT⟩

/-- Assigning a positive split at a canonical frag in such a map. -/
theorem Valid.setSplit_of_sublist (ht : tree.Valid) {tree' : FragtreeT}
    (hs : tree'.splits.Sublist tree.splits) {x : FragT} (hx : x.Canonical) {b : ℕ} (hb : 0 < b)
    (hT : IsTree (tree'.setSplit x b).view) : (tree'.setSplit x b).Valid :=
  ⟨(ht.toKeyed.of_sublist hs).setSplit hx hb, hT⟩

theorem splitAt_setSplit (tree : FragtreeT) (c : Cell 24) (b : ℕ) :
    SplitAt tree.view (tree.setSplit (ofCell c) b).view c b where
  self := by rw [← getSplit_ofCell, getSplit_setSplit, if_pos rfl]
  other d hd := by
    rw [← getSplit_ofCell, getSplit_setSplit, if_neg (fun h => hd (ofCell_injective h)),
      getSplit_ofCell]

theorem splitAt_eraseSplit (hs : OrdMap.Sorted tree.splits) (c : Cell 24) :
    SplitAt tree.view (tree.eraseSplit (ofCell c)).view c 0 where
  self := by rw [← getSplit_ofCell, getSplit_eraseSplit hs, if_pos rfl]
  other d hd := by
    rw [← getSplit_ofCell, getSplit_eraseSplit hs,
      if_neg (fun h => hd (ofCell_injective h)), getSplit_ofCell]

theorem foldl_eraseSplit_sublist (fs : List FragT) (tree : FragtreeT) :
    (fs.foldl eraseSplit tree).splits.Sublist tree.splits := by
  induction fs generalizing tree with
  | nil => exact List.Sublist.refl _
  | cons f fs ih => exact (ih (tree.eraseSplit f)).trans (@OrdMap.erase_sublist FragT ℕ fragKeyEq _ _)

/-- Erasing frags one after another leaves them unsplit and the others as they were. -/
theorem getSplit_foldl_eraseSplit (fs : List FragT) {tree : FragtreeT}
    (hs : OrdMap.Sorted tree.splits) (y : FragT) :
    (fs.foldl eraseSplit tree).getSplit y = if y ∈ fs then 0 else tree.getSplit y := by
  induction fs generalizing tree with
  | nil => simp
  | cons f fs ih =>
    rw [List.foldl_cons, @ih (tree.eraseSplit f) (hs.erase f), getSplit_eraseSplit hs]
    by_cases hy : y ∈ fs <;> by_cases hf : y = f <;> simp [hy, hf]

/-- Assigning one split to frags one after another sets theirs and keeps the others. -/
theorem getSplit_foldl_setSplit (fs : List FragT) (b : ℕ) (tree : FragtreeT) (y : FragT) :
    (fs.foldl (fun tree f => tree.setSplit f b) tree).getSplit y =
      if y ∈ fs then b else tree.getSplit y := by
  induction fs generalizing tree with
  | nil => simp
  | cons f fs ih =>
    rw [List.foldl_cons, ih, getSplit_setSplit]
    by_cases hy : y ∈ fs <;> by_cases hf : y = f <;> simp [hy, hf]

theorem Keyed.foldl_setSplit (hk : tree.Keyed) {fs : List FragT} (hfs : ∀ f ∈ fs, f.Canonical)
    {b : ℕ} (hb : 0 < b) : (fs.foldl (fun tree f => tree.setSplit f b) tree).Keyed := by
  induction fs generalizing tree with
  | nil => exact hk
  | cons f fs ih =>
    exact ih (hk.setSplit (hfs f List.mem_cons_self) hb) fun g hg =>
      hfs g (List.mem_cons_of_mem f hg)

/-! ## `split` and `merge` on maps that are not trees

Without simplifying, `split` and `merge` ask `is_leaf` and assign or erase one entry; what
`is_leaf` needs holds in maps that are not trees, as `force_to_leaf` builds them. -/

section Bound

variable (hb : ∀ c, 0 < tree.view c → c.bits + tree.view c ≤ 24)
include hb

/-- `merge` of a split frag by its split, without simplifying, erases its split. -/
theorem merge_eq_eraseSplit {c : Cell 24} (hpos : 0 < tree.view c) :
    tree.merge (ofCell c) (tree.view c) false = some (tree.eraseSplit (ofCell c)) := by
  simp [merge, isLeaf_of_pos hb hpos, getSplit_ofCell]

/-- `split` of a reached frag that is not split, under split frags that are reached, without
simplifying, assigns its split. -/
theorem split_eq_setSplit {c : Cell 24}
    (hup : ∀ d, d.Above c → 0 < tree.view d → Reach tree.view root d)
    (hr : Reach tree.view root c) (h0 : tree.view c = 0) (b : ℕ) :
    tree.split (ofCell c) b false = some (tree.setSplit (ofCell c) b) := by
  simp [split, isLeaf_of_reach hb hup hr h0]

end Bound

/-! ## `try_assimilate_children` -/

/-- After a first child, the loop of `try_assimilate_children` goes through only when every
child is split by the same bits. The induction is on the children left. -/
theorem childbitsLoop_of_pos {acc r : ℕ} (hacc : 0 < acc) {l : List ℕ}
    (h : childbitsLoop l acc = some r) : r = acc ∧ ∀ cb ∈ l, cb = acc := by
  induction l with
  | nil =>
    cases h
    exact ⟨rfl, fun _ h => absurd h List.not_mem_nil⟩
  | cons cb l ih =>
    rw [childbitsLoop] at h
    split_ifs at h with h0 hne
    have hcb : cb = acc := by omega
    subst hcb
    obtain ⟨hr, hl⟩ := ih h
    exact ⟨hr, fun x hx => (List.mem_cons.1 hx).elim id (hl x)⟩

/-- The loop of `try_assimilate_children` goes through when every child is split, all by the
same bits, which it returns. -/
theorem childbitsLoop_spec {l : List ℕ} {r : ℕ} (h : childbitsLoop l 0 = some r) :
    ∀ cb ∈ l, 0 < cb ∧ cb = r := by
  cases l with
  | nil => exact fun _ h => absurd h List.not_mem_nil
  | cons cb l =>
    rw [childbitsLoop] at h
    split_ifs at h with h0
    obtain ⟨hr, hl⟩ := childbitsLoop_of_pos (Nat.pos_of_ne_zero h0) h
    intro x hx
    rcases List.mem_cons.1 hx with rfl | hx
    · exact ⟨Nat.pos_of_ne_zero h0, hr.symm⟩
    · rw [hl x hx]
      exact ⟨Nat.pos_of_ne_zero h0, hr.symm⟩

/-- When the children of a split cell `p` are all split by `cb` bits, erasing them and adding
`cb` to the split of `p` merges them into `p`. -/
theorem assimilatesAt_tryAssimilate (ht : tree.Valid) {p : Cell 24} (hpos : 0 < tree.view p)
    (hb : p.bits + tree.view p ≤ 24) (cb : ℕ) :
    AssimilatesAt tree.view
      ((((p.children (tree.view p) hb).map ofCell).foldl eraseSplit tree).setSplit (ofCell p)
        ((((p.children (tree.view p) hb).map ofCell).foldl eraseSplit tree).getSplit (ofCell p) +
          cb)).view p cb := by
  set tree' := ((p.children (tree.view p) hb).map ofCell).foldl eraseSplit tree
  have hview : ∀ c, tree'.getSplit (ofCell c) =
      if ofCell c ∈ (p.children (tree.view p) hb).map ofCell then 0 else tree.view c :=
    fun c => getSplit_foldl_eraseSplit _ ht.sorted _
  have hmem : ∀ c, ofCell c ∈ (p.children (tree.view p) hb).map ofCell ↔
      p.Above c ∧ c.bits = p.bits + tree.view p := fun c =>
    (List.mem_map_of_injective ofCell_injective).trans (mem_children_iff hb)
  have hset := splitAt_setSplit tree' p (tree'.getSplit (ofCell p) + cb)
  refine ⟨?_, fun c hpc hc => ?_, fun c hcp hnc => ?_⟩
  · rw [hset.self, hview, if_neg (fun h => by have := ((hmem p).1 h).2; omega)]
  · have hcp : c ≠ p := fun h => by rw [h] at hc; omega
    rw [hset.other c hcp, ← getSplit_ofCell, hview, if_pos ((hmem c).2 ⟨hpc, hc⟩)]
  · rw [hset.other c hcp, ← getSplit_ofCell, hview, if_neg (fun h => hnc ((hmem c).1 h))]

/-- `try_assimilate_children(x)` keeps a valid fragtree valid and keeps its leaves, whatever
frag it is given. -/
theorem tryAssimilateChildren_spec (ht : tree.Valid) (x : FragT) :
    (tree.tryAssimilateChildren x).Valid ∧
      ∀ l, IsLeaf (tree.tryAssimilateChildren x).view l ↔ IsLeaf tree.view l := by
  unfold tryAssimilateChildren
  split_ifs with h0
  · exact ⟨ht, fun _ => Iff.rfl⟩
  obtain ⟨p, rfl⟩ := (ht.canonical_of_pos (Nat.pos_of_ne_zero h0)).exists_ofCell
  rw [getSplit_ofCell] at h0 ⊢
  have hpos : 0 < tree.view p := Nat.pos_of_ne_zero h0
  have hb := ht.isTree.bound p hpos
  have hp := ht.isTree.reach p hpos
  rw [split_ofCell p hb, List.map_map]
  split
  · exact ⟨ht, fun _ => Iff.rfl⟩
  · rename_i cb hcb
    have hch : ∀ c, p.Above c → c.bits = p.bits + tree.view p → tree.view c = cb :=
      fun c hpc hc =>
        (childbitsLoop_spec hcb _ (List.mem_map.2 ⟨c, (mem_children_iff hb).2 ⟨hpc, hc⟩, rfl⟩)).2
    have hcb0 : 0 < cb := by
      have hc0 := (mem_children_iff hb).2
        ⟨ofWord_above (mem_base p) _ hb (Nat.le_add_right _ _), rfl⟩
      obtain ⟨h1, h2⟩ := childbitsLoop_spec hcb _ (List.mem_map.2 ⟨_, hc0, rfl⟩)
      omega
    have ha := assimilatesAt_tryAssimilate ht hpos hb cb
    dsimp only
    refine ⟨ht.setSplit_of_sublist (foldl_eraseSplit_sublist _ _) (canonical_ofCell p)
      (by omega) (IsTree.assimilateAt ha ht.isTree hp hpos hcb0 hch), fun l => ?_⟩
    exact isLeaf_assimilateAt_iff ha ht.isTree hp hpos hcb0 hch

/-! ## `split` and `merge` -/

/-- Splitting a leaf by `b > 0` bits within the 24 keeps a valid fragtree valid and puts the
cells of its split in its place. -/
theorem setSplit_spec (ht : tree.Valid) {x : Cell 24} (hx : IsLeaf tree.view x) {b : ℕ}
    (hb0 : 0 < b) (hb : x.bits + b ≤ 24) :
    (tree.setSplit (ofCell x) b).Valid ∧ ∀ l, IsLeaf (tree.setSplit (ofCell x) b).view l ↔
      (IsLeaf tree.view l ∧ l ≠ x ∨ x.Above l ∧ l.bits = x.bits + b) := by
  have hs := splitAt_setSplit tree x b
  exact ⟨ht.setSplit_of_sublist (List.Sublist.refl _) (canonical_ofCell x) hb0
    (IsTree.splitAt hs ht.isTree hx hb), fun l => isLeaf_splitAt_iff hs ht.isTree hx hb hb0⟩

/-- Undoing the split of a cell whose children are not split keeps a valid fragtree valid and
makes the cell the leaf of all under it. -/
theorem eraseSplit_spec (ht : tree.Valid) {x : Cell 24} (hpos : 0 < tree.view x)
    (hleaves : ∀ c, x.Above c → c.bits = x.bits + tree.view x → tree.view c = 0) :
    (tree.eraseSplit (ofCell x)).Valid ∧ ∀ l, IsLeaf (tree.eraseSplit (ofCell x)).view l ↔
      (IsLeaf tree.view l ∧ ¬ x.Above l ∨ l = x) := by
  have hs := splitAt_eraseSplit ht.sorted x
  have hx := ht.isTree.reach x hpos
  exact ⟨ht.of_sublist (@OrdMap.erase_sublist FragT ℕ fragKeyEq _ _)
    (IsTree.mergeAt hs ht.isTree hx hpos hleaves),
    fun l => isLeaf_mergeAt_iff hs ht.isTree hx hpos hleaves⟩

/-- What `split` does when it returns: `x` was a leaf, and the split is assigned, then
simplified above `x` when asked. -/
theorem split_eq_some {x : FragT} {b : ℕ} {simplify : Bool} {tree' : FragtreeT}
    (h : tree.split x b simplify = some tree') : tree.isLeaf x = some true ∧
      (simplify = false ∧ tree' = tree.setSplit x b ∨
        ∃ br, simplify = true ∧ (tree.setSplit x b).getBranchAbove x = some br ∧
          tree' = (tree.setSplit x b).tryAssimilateChildren br) := by
  unfold split at h
  cases hl : tree.isLeaf x with
  | none => simp [hl] at h
  | some leaf =>
    cases leaf with
    | false => simp [hl] at h
    | true =>
      refine ⟨rfl, ?_⟩
      cases simplify with
      | false =>
        simp only [hl, Option.bind_eq_bind, Option.bind_some, Bool.true_eq_false,
          Bool.false_eq_true, ↓reduceIte, Option.some.injEq] at h
        exact .inl ⟨rfl, h.symm⟩
      | true =>
        cases hbr : (tree.setSplit x b).getBranchAbove x with
        | none => simp [hl, hbr] at h
        | some br =>
          simp only [hl, hbr, Option.bind_eq_bind, Option.bind_some, Bool.true_eq_false,
            ↓reduceIte, Option.some.injEq] at h
          exact .inr ⟨br, rfl, rfl, h.symm⟩

/-- What `merge` does when it returns: `x` was not a leaf and was split by `b`, and the split is
erased, then simplified above `x` when asked. -/
theorem merge_eq_some {x : FragT} {b : ℕ} {simplify : Bool} {tree' : FragtreeT}
    (h : tree.merge x b simplify = some tree') : tree.isLeaf x = some false ∧
      tree.getSplit x = b ∧
      (simplify = false ∧ tree' = tree.eraseSplit x ∨
        ∃ br, simplify = true ∧ (tree.eraseSplit x).getBranchAbove x = some br ∧
          tree' = (tree.eraseSplit x).tryAssimilateChildren br) := by
  unfold merge at h
  cases hl : tree.isLeaf x with
  | none => simp [hl] at h
  | some leaf =>
    cases leaf with
    | true => simp [hl] at h
    | false =>
      by_cases hb : tree.getSplit x = b
      · refine ⟨rfl, hb, ?_⟩
        cases simplify with
        | false =>
          simp only [hl, hb, Option.bind_eq_bind, Option.bind_some, Bool.false_eq_true,
            ne_eq, not_true_eq_false, ↓reduceIte, Option.some.injEq] at h
          exact .inl ⟨rfl, h.symm⟩
        | true =>
          cases hbr : (tree.eraseSplit x).getBranchAbove x with
          | none => simp [hl, hb, hbr] at h
          | some br =>
            simp only [hl, hb, hbr, Option.bind_eq_bind, Option.bind_some, Bool.false_eq_true,
              ne_eq, not_true_eq_false, ↓reduceIte, Option.some.injEq] at h
            exact .inr ⟨br, rfl, rfl, h.symm⟩
      · simp [hl, hb] at h

/-- `split(x, b)` of a leaf of a valid fragtree by `b > 0` bits within the 24 returns a valid
fragtree in which the frags of the split stand in the place of the leaf, whether or not it
simplifies. -/
theorem split_spec (ht : tree.Valid) {x : Cell 24} (hx : IsLeaf tree.view x) {b : ℕ}
    (hb0 : 0 < b) (hb : x.bits + b ≤ 24) (simplify : Bool) :
    ∃ tree', tree.split (ofCell x) b simplify = some tree' ∧ tree'.Valid ∧
      ∀ l, IsLeaf tree'.view l ↔ (IsLeaf tree.view l ∧ l ≠ x ∨ x.Above l ∧ l.bits = x.bits + b) := by
  obtain ⟨bl, hbl, hiff⟩ := isLeaf_spec ht x
  obtain rfl : bl = true := hiff.2 hx
  obtain ⟨hval, hleaf⟩ := setSplit_spec ht hx hb0 hb
  cases simplify with
  | false =>
    refine ⟨_, ?_, hval, hleaf⟩
    simp [split, hbl]
  | true =>
    obtain ⟨br, hbr, -, -⟩ := (tree.setSplit (ofCell x) b).getBranchAbove_ofCell x
    obtain ⟨hval', hleaf'⟩ := tryAssimilateChildren_spec hval (ofCell br)
    refine ⟨_, ?_, hval', fun l => (hleaf' l).trans (hleaf l)⟩
    simp [split, hbl, hbr]

/-- `merge(x, b)` of a frag of a valid fragtree by the `b > 0` bits it is split by, when the frags
of that split are not split, returns a valid fragtree in which `x` is the leaf of all under it,
whether or not it simplifies. -/
theorem merge_spec (ht : tree.Valid) {x : Cell 24} (hpos : 0 < tree.view x)
    (hleaves : ∀ c, x.Above c → c.bits = x.bits + tree.view x → tree.view c = 0)
    (simplify : Bool) :
    ∃ tree', tree.merge (ofCell x) (tree.view x) simplify = some tree' ∧ tree'.Valid ∧
      ∀ l, IsLeaf tree'.view l ↔ (IsLeaf tree.view l ∧ ¬ x.Above l ∨ l = x) := by
  obtain ⟨bl, hbl, hiff⟩ := isLeaf_spec ht x
  obtain rfl : bl = false := by
    cases bl
    · rfl
    · exact absurd (hiff.1 rfl).2 (by omega)
  obtain ⟨hval, hleaf⟩ := eraseSplit_spec ht hpos hleaves
  cases simplify with
  | false =>
    refine ⟨_, ?_, hval, hleaf⟩
    simp [merge, hbl, getSplit_ofCell]
  | true =>
    obtain ⟨br, hbr, -, -⟩ := (tree.eraseSplit (ofCell x)).getBranchAbove_ofCell x
    obtain ⟨hval', hleaf'⟩ := tryAssimilateChildren_spec hval (ofCell br)
    refine ⟨_, ?_, hval', fun l => (hleaf' l).trans (hleaf l)⟩
    simp [merge, hbl, hbr, getSplit_ofCell]

/-! ## Erasing a split -/

/-- Erasing the split of a frag whose children are not split keeps a valid fragtree valid; an
unsplit frag changes nothing. -/
theorem eraseSplit_valid (ht : tree.Valid) {x : FragT} {b : ℕ} (hb : tree.getSplit x = b)
    (hch : ∀ f ∈ x.split b, tree.getSplit f = 0) : (tree.eraseSplit x).Valid := by
  rcases Nat.eq_zero_or_pos (tree.getSplit x) with h0 | hpos
  · have hview : (tree.eraseSplit x).view = tree.view := funext fun c => by
      rw [← getSplit_ofCell, ← getSplit_ofCell, getSplit_eraseSplit ht.sorted]
      split_ifs with h
      · rw [h, h0]
      · rfl
    exact ht.of_sublist (@OrdMap.erase_sublist FragT ℕ fragKeyEq _ _) (hview ▸ ht.isTree)
  · obtain ⟨c, rfl⟩ := (ht.canonical_of_pos hpos).exists_ofCell
    rw [getSplit_ofCell] at hb hpos
    subst hb
    have hbound := ht.isTree.bound c hpos
    refine (eraseSplit_spec ht hpos fun d hcd hd => hch _ ?_).1
    rw [split_ofCell c hbound]
    exact List.mem_map_of_mem ((mem_children_iff hbound).2 ⟨hcd, hd⟩)

end FragtreeT

end Lunule.Frag
