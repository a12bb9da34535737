import Lunule.BitPrefix.Search

/-!
Clearing the splits a worklist reaches. A loop takes cells off the front of a queue; a split
cell has its split undone and the cells of that split join the back of the queue. While the
cells of the queue are apart, what the loop leaves is the split function with every cell that
the queue reached unsplit and the others as they were, and each turn lowers the number of cells
under the queue by one. Started from one reached cell of a tree, it collapses the tree under
that cell.
-/

namespace BitPrefix

namespace Cell

variable {w : ℕ}

/-- Neither cell is above the other: no word is in both. -/
def Apart (c d : Cell w) : Prop := ¬ c.Above d ∧ ¬ d.Above c

theorem Apart.symm {c d : Cell w} (h : Apart c d) : Apart d c := ⟨h.2, h.1⟩

/-- Distinct cells of the same bits are apart. -/
theorem apart_of_bits_eq {c d : Cell w} (hne : c ≠ d) (hb : c.bits = d.bits) : Apart c d :=
  ⟨fun h => hne (h.eq_of_bits_le hb.ge), fun h => hne (h.eq_of_bits_le hb.le).symm⟩

/-- A cell apart from `c` is apart from every cell under `c`. -/
theorem Apart.of_above {c d u : Cell w} (h : Apart c u) (hcd : c.Above d) : Apart d u := by
  refine ⟨fun hdu => h.1 (hcd.trans hdu), fun hud => ?_⟩
  rcases above_or_above (hcd.mem (mem_base d)) (hud.mem (mem_base d)) with hcu | huc
  · exact h.1 hcu
  · exact h.2 huc

/-- The cells of a split are apart from one another. -/
theorem pairwise_apart_children {c : Cell w} {nb : ℕ} (h : c.bits + nb ≤ w) :
    (c.children nb h).Pairwise Apart :=
  (nodup_children h).pairwise_of_forall_ne fun d hd e he hne =>
    apart_of_bits_eq hne (by rw [((mem_children_iff h).1 hd).2, ((mem_children_iff h).1 he).2])

/-- A cell of a split of at least one bit is not above the split cell. -/
theorem not_above_of_mem_children {c d : Cell w} {nb : ℕ} (h : c.bits + nb ≤ w) (hnb : 0 < nb)
    (hd : d ∈ c.children nb h) : ¬ d.Above c := fun hdc => by
  have hbits := ((mem_children_iff h).1 hd).2
  have hle := hdc.1
  omega

/-- Two distinct leaves are apart. -/
theorem IsLeaf.apart {S : Cell w → ℕ} {l l' : Cell w} (hl : IsLeaf S l) (hl' : IsLeaf S l')
    (hne : l ≠ l') : Apart l l' :=
  ⟨fun h => hne (hl.eq_of_above hl'.1 h).symm, fun h => hne (hl'.eq_of_above hl.1 h)⟩

/-- No leaf holds a cell that lies above the split of a reached split cell. -/
theorem IsLeaf.not_above_of_split {S : Cell w → ℕ} {l s x : Cell w} (hl : IsLeaf S l)
    (hs : Reach S root s) (hpos : 0 < S s) (hsx : s.Above x) (hlt : x.bits < s.bits + S s) :
    ¬ l.Above x := fun hlx => by
  rcases above_or_above (hlx.mem (mem_base x)) (hsx.mem (mem_base x)) with hls | hsl
  · have := hl.2
    rw [hl.eq_of_above hs hls] at hpos
    omega
  · rcases (Reach.of_above hs hl.1 hsl).eq_or_le with rfl | ⟨-, hle⟩
    · have := hl.2
      omega
    · have := hlx.1
      omega

section Prune

variable {S S' S₁ : Cell w → ℕ}

/-- `S'` is `S` with every cell that a cell of `q` reaches unsplit, and the others as they
were. -/
structure PrunesFrom (S S' : Cell w → ℕ) (q : List (Cell w)) : Prop where
  reached : ∀ c, (∃ t ∈ q, Reach S t c) → S' c = 0
  other : ∀ c, (¬ ∃ t ∈ q, Reach S t c) → S' c = S c

theorem prunesFrom_nil (S : Cell w → ℕ) : PrunesFrom S S [] :=
  ⟨fun _ ⟨_, ht, _⟩ => absurd ht List.not_mem_nil, fun _ _ => rfl⟩

variable {q : List (Cell w)}

/-- A cell that was not split is not split after. -/
theorem PrunesFrom.eq_zero (h : PrunesFrom S S' q) {c : Cell w} (h0 : S c = 0) : S' c = 0 := by
  by_cases hc : ∃ t ∈ q, Reach S t c
  · exact h.reached c hc
  · rw [h.other c hc, h0]

/-- An unsplit cell at the front of the queue is only taken off it. -/
theorem PrunesFrom.cons_of_eq_zero (h : PrunesFrom S S' q) {t : Cell w} (h0 : S t = 0) :
    PrunesFrom S S' (t :: q) := by
  refine ⟨fun c ⟨u, hu, hc⟩ => ?_, fun c hc =>
    h.other c fun ⟨u, hu, huc⟩ => hc ⟨u, List.mem_cons_of_mem t hu, huc⟩⟩
  rcases List.mem_cons.1 hu with rfl | hu
  · rcases hc.eq_or_le with rfl | ⟨hpos, -⟩
    · exact h.eq_zero h0
    · omega
  · exact h.reached c ⟨u, hu, hc⟩

/-- Undoing a split at a cell that `u` is not above changes nothing `u` reaches. -/
theorem SplitAt.reach_iff_of_not_above {t : Cell w} {b : ℕ} (hs : SplitAt S S₁ t b)
    {u c : Cell w} (hu : ¬ u.Above t) : Reach S₁ u c ↔ Reach S u c :=
  Reach.congr_iff fun d hud => hs.other d fun hdt => hu (hdt ▸ hud)

/-- A split cell at the front of the queue: its split undone, the cells of that split join the
back of the queue. The cells it reached are itself and what the cells of its split reach. -/
theorem PrunesFrom.cons_of_pos {t : Cell w} (hs : SplitAt S S₁ t 0) (hpos : 0 < S t)
    (hb : t.bits + S t ≤ w) (hq : ∀ u ∈ q, Apart t u)
    (h : PrunesFrom S₁ S' (q ++ t.children (S t) hb)) : PrunesFrom S S' (t :: q) := by
  have hreach : ∀ c, (∃ u ∈ q ++ t.children (S t) hb, Reach S₁ u c) ↔
      ∃ u ∈ q ++ t.children (S t) hb, Reach S u c := fun c => by
    refine exists_congr fun u => and_congr_right fun hu => hs.reach_iff_of_not_above ?_
    rcases List.mem_append.1 hu with hu | hu
    · exact (hq u hu).2
    · exact not_above_of_mem_children hb hpos hu
  have hhead : ∀ c, (∃ u ∈ t :: q, Reach S u c) ↔
      c = t ∨ ∃ u ∈ q ++ t.children (S t) hb, Reach S u c := fun c => by
    constructor
    · rintro ⟨u, hu, huc⟩
      rcases List.mem_cons.1 hu with rfl | hu
      · rcases huc.head with rfl | ⟨_, d, hd, hdc⟩
        · exact .inl rfl
        · exact .inr ⟨d, List.mem_append_right q hd, hdc⟩
      · exact .inr ⟨u, List.mem_append_left _ hu, huc⟩
    · rintro (rfl | ⟨u, hu, huc⟩)
      · exact ⟨c, List.mem_cons_self, .refl⟩
      rcases List.mem_append.1 hu with hu | hu
      · exact ⟨u, List.mem_cons_of_mem t hu, huc⟩
      · exact ⟨t, List.mem_cons_self, (Reach.refl.child hpos hb hu).trans huc⟩
  refine ⟨fun c hc => ?_, fun c hc => ?_⟩
  · rcases (hhead c).1 hc with rfl | hc
    · exact h.eq_zero hs.self
    · exact h.reached c ((hreach c).2 hc)
  · have hct : c ≠ t := fun hct => hc ((hhead c).2 (.inl hct))
    rw [h.other c fun hc' => hc ((hhead c).2 (.inr ((hreach c).1 hc'))), hs.other c hct]

/-- Pruning from one reached cell of a tree collapses the tree under it. -/
theorem PrunesFrom.collapsesAt (hT : IsTree S) {x : Cell w} (hx : Reach S root x)
    (h : PrunesFrom S S' [x]) : CollapsesAt S S' x where
  under c hxc := by
    rcases Nat.eq_zero_or_pos (S c) with h0 | hpos
    · exact h.eq_zero h0
    · exact h.reached c ⟨x, List.mem_singleton_self x, Reach.of_above hx (hT.reach c hpos) hxc⟩
  other c hxc := h.other c fun ⟨u, hu, huc⟩ => hxc (List.mem_singleton.1 hu ▸ huc.above)

end Prune

/-! ## Making a cell a leaf -/

section Leaf

variable {S S' : Cell w → ℕ}

/-- `S'` makes `x` a leaf and changes the leaves only where `x` is: the leaves apart from `x`
stay, and every other leaf of `S'` is apart from `x` and is a leaf of `S` or lies in the leaf of
`S` that holds `x`. -/
structure LeafAt (S S' : Cell w → ℕ) (x : Cell w) : Prop where
  leaf : IsLeaf S' x
  keep : ∀ l, IsLeaf S l → Apart l x → IsLeaf S' l
  new : ∀ l, IsLeaf S' l → l ≠ x →
    Apart l x ∧ (IsLeaf S l ∨ ∃ l₀, IsLeaf S l₀ ∧ l₀.Above l ∧ l₀.Above x)

theorem LeafAt.refl {x : Cell w} (hx : IsLeaf S x) : LeafAt S S x :=
  ⟨hx, fun _ hl _ => hl, fun _ hl hne => ⟨hl.apart hx hne, .inl hl⟩⟩

/-- Splitting the leaf `s` above `x` down to the bits of `x`. -/
theorem LeafAt.of_split {s x : Cell w} (hs : IsLeaf S s) (hsx : s.Above x)
    (h : ∀ l, IsLeaf S' l ↔ IsLeaf S l ∧ l ≠ s ∨ s.Above l ∧ l.bits = x.bits) : LeafAt S S' x where
  leaf := (h x).2 (.inr ⟨hsx, rfl⟩)
  keep l hl hap := (h l).2 (.inl ⟨hl, fun hls => hap.1 (hls ▸ hsx)⟩)
  new l hl hne := by
    rcases (h l).1 hl with ⟨hl₀, hls⟩ | ⟨hsl, hlb⟩
    · exact ⟨((hs.apart hl₀ (Ne.symm hls)).of_above hsx).symm, .inl hl₀⟩
    · exact ⟨apart_of_bits_eq hne hlb, .inr ⟨s, hs, hsl, hsx⟩⟩

/-- Collapsing all under `x`, where `x` lies above the split of a reached split cell `s`. -/
theorem LeafAt.of_collapse {s x : Cell w} (hs : Reach S root s) (hpos : 0 < S s)
    (hsx : s.Above x) (hlt : x.bits < s.bits + S s)
    (h : ∀ l, IsLeaf S' l ↔ IsLeaf S l ∧ ¬ x.Above l ∨ l = x) : LeafAt S S' x where
  leaf := (h x).2 (.inr rfl)
  keep l hl hap := (h l).2 (.inl ⟨hl, hap.2⟩)
  new l hl hne := by
    rcases (h l).1 hl with ⟨hl₀, hxl⟩ | rfl
    · exact ⟨⟨hl₀.not_above_of_split hs hpos hsx hlt, hxl⟩, .inl hl₀⟩
    · exact absurd rfl hne

/-- `S'` has as its leaves under `x` the cells of `b` bits more, and changes the leaves elsewhere
only where `x` is, as `LeafAt` says. -/
structure SplitsTo (S S' : Cell w → ℕ) (x : Cell w) (b : ℕ) : Prop where
  under : ∀ l, x.Above l → (IsLeaf S' l ↔ l.bits = x.bits + b)
  keep : ∀ l, IsLeaf S l → Apart l x → IsLeaf S' l
  new : ∀ l, IsLeaf S' l → ¬ x.Above l →
    Apart l x ∧ (IsLeaf S l ∨ ∃ l₀, IsLeaf S l₀ ∧ l₀.Above l ∧ l₀.Above x)

/-- Making `x` a leaf splits it by no bits. -/
theorem LeafAt.splitsTo_zero {x : Cell w} (h : LeafAt S S' x) : SplitsTo S S' x 0 where
  under l hxl := by
    constructor
    · intro hl
      rw [h.leaf.eq_of_above hl.1 hxl]
      rfl
    · intro hb
      rw [← hxl.eq_of_bits_le (by omega)]
      exact h.leaf
  keep := h.keep
  new l hl hxl := h.new l hl fun he => hxl (he ▸ Above.refl l)

/-- Making `x` a leaf and then splitting it by `b` bits. -/
theorem LeafAt.splitsTo_of_split {S₁ : Cell w → ℕ} {x : Cell w} {b : ℕ} (h : LeafAt S S₁ x)
    (hs : ∀ l, IsLeaf S' l ↔ IsLeaf S₁ l ∧ l ≠ x ∨ x.Above l ∧ l.bits = x.bits + b) :
    SplitsTo S S' x b where
  under l hxl := by
    rw [hs l]
    constructor
    · rintro (⟨hl, hne⟩ | ⟨-, hb⟩)
      · exact absurd (h.leaf.eq_of_above hl.1 hxl) hne
      · exact hb
    · exact fun hb => .inr ⟨hxl, hb⟩
  keep l hl hap := (hs l).2 (.inl ⟨h.keep l hl hap, fun he => hap.2 (he ▸ Above.refl l)⟩)
  new l hl hxl := by
    rcases (hs l).1 hl with ⟨hl₁, hne⟩ | ⟨hxl', -⟩
    · exact h.new l hl₁ hne
    · exact absurd hxl' hxl

end Leaf

/-! ## The measure of the loop -/

section Measure

variable {S S₁ : Cell w → ℕ}

/-- Undoing a split at a cell that `u` is not above leaves the cells under `u` as they were. -/
theorem SplitAt.sizeUnder_eq_of_not_above {t : Cell w} {b : ℕ} (hs : SplitAt S S₁ t b)
    {u : Cell w} (hu : ¬ u.Above t) : sizeUnder S₁ u = sizeUnder S u :=
  sizeUnder_congr fun d hud => hs.other d fun hdt => hu (hdt ▸ hud)

/-- Taking a split cell off the queue and putting the cells of its split at the back lowers the
number of cells under the queue by one. -/
theorem SplitAt.sum_sizeUnder_append {t : Cell w} (hs : SplitAt S S₁ t 0) (hpos : 0 < S t)
    (hb : t.bits + S t ≤ w) {q : List (Cell w)} (hq : ∀ u ∈ q, Apart t u) :
    ((q ++ t.children (S t) hb).map (sizeUnder S₁)).sum + 1 =
      ((t :: q).map (sizeUnder S)).sum := by
  have hq' : (q.map (sizeUnder S₁)) = q.map (sizeUnder S) :=
    List.map_congr_left fun u hu => hs.sizeUnder_eq_of_not_above (hq u hu).2
  have hch : (t.children (S t) hb).map (sizeUnder S₁) = (t.children (S t) hb).map (sizeUnder S) :=
    List.map_congr_left fun d hd =>
      hs.sizeUnder_eq_of_not_above (not_above_of_mem_children hb hpos hd)
  rw [List.map_append, List.sum_append, hq', hch, List.map_cons, List.sum_cons,
    sizeUnder_of_pos hpos hb]
  omega

end Measure

end Cell

end BitPrefix
