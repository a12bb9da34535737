import Lunule.IntervalSet.Build

/-!
`InoTable` (`mds/InoTable.cc`): the inode numbers a rank hands out. `free` holds the numbers
free as journaled and `projected_free` those free once the updates in flight are journaled
too. A `project_*` call updates `projected_free` at once, the matching `apply_*` updates
`free` when its journal entry is written, and replay and repair update both. Each update is
one `interval_set` operation (`IntervalSet.Op`), so `Op.exec_spec` says what it does; the
loop of `project_alloc_ids` takes the `want` least projected free numbers.
-/

namespace Lunule

open IntervalSet Intervals

/-- `InoTable` with the `MDSTable` fields it reads. -/
structure InoTable where
  rank : ℕ
  free : IntervalSet
  projectedFree : IntervalSet
  version : ℕ
  projectedVersion : ℕ
  deriving DecidableEq, Repr

namespace InoTable

/-- `InoTable(MDSRank *m)`: nothing loaded yet, both versions `0`. -/
def initial (rank : ℕ) : InoTable := ⟨rank, empty, empty, 0, 0⟩

/-- The range `reset_state` gives a rank: `[(rank+1) << 40, (rank+2) << 40)`. -/
def inoRange (rank : ℕ) : Finset ℕ := Finset.Ico ((rank + 1) * 2 ^ 40) ((rank + 2) * 2 ^ 40)

def resetState (t : InoTable) : Option InoTable :=
  (empty.insert (Fin.ofNat _ ((t.rank + 1) * 2 ^ 40)) (2 ^ 40)).map fun r =>
    { t with free := r.1, projectedFree := r.1 }

/-- `decode_state`, with `MDSTable::load_2`'s `projected_version = version`. -/
def decodeState (rank : ℕ) (free : IntervalSet) (version : ℕ) : InoTable :=
  ⟨rank, free, free, version, version⟩

/-- A `project_*` update: `projected_free` alone, then `++projected_version`. -/
def projectFree (t : InoTable) (o : Op) : Option InoTable :=
  (o.exec t.projectedFree).map fun pf =>
    { t with projectedFree := pf, projectedVersion := t.projectedVersion + 1 }

/-- An `apply_*` update: `free` alone, then `++version`. -/
def applyFree (t : InoTable) (o : Op) : Option InoTable :=
  (o.exec t.free).map fun f => { t with free := f, version := t.version + 1 }

/-- `projected_version = ++version`. -/
def bumpVersion (t : InoTable) : InoTable :=
  { t with version := t.version + 1, projectedVersion := t.version + 1 }

/-- A replay update: both sets, then `projected_version = ++version`. -/
def replayFree (t : InoTable) (o : Op) : Option InoTable :=
  (o.exec t.free).bind fun f =>
    (o.exec t.projectedFree).map fun pf => bumpVersion { t with free := f, projectedFree := pf }

/-- `project_alloc_id(id)`: `id = 0` takes the least projected free number. -/
def projectAllocId (t : InoTable) (id : U64) : Option (InoTable × U64) :=
  (if id = 0 then t.projectedFree.rangeStart else some id).bind fun id =>
    (t.projectFree (.erase id 1)).map fun t => (t, id)

def applyAllocId (t : InoTable) (id : U64) : Option InoTable := t.applyFree (.erase id 1)

/-- The `while (want > 0)` loop of `project_alloc_ids`: each round moves the first run of
`projected_free`, cut to `want` numbers, into `ids`. It runs at most `fuel` rounds; each
round takes at least one number. -/
def projectAllocIdsLoop : ℕ → IntervalSet → IntervalSet → ℕ → Option (IntervalSet × IntervalSet)
  | fuel, projectedFree, ids, want =>
    if want = 0 then some (projectedFree, ids)
    else
      match fuel with
      | 0 => none
      | fuel + 1 =>
        projectedFree.rangeStart.bind fun start =>
        (projectedFree.endAfter start).bind fun en =>
        let num : U64 := if (Fin.ofNat _ want : U64) < en - start then Fin.ofNat _ want
          else en - start
        (projectedFree.erase start num none).bind fun projectedFree =>
        (ids.insert start num).bind fun r =>
        projectAllocIdsLoop fuel projectedFree r.1 (want - num.val)

/-- `project_alloc_ids(ids, want)` with `want` as the loop's fuel. -/
def projectAllocIds (t : InoTable) (ids : IntervalSet) (want : ℕ) :
    Option (InoTable × IntervalSet) :=
  (projectAllocIdsLoop want t.projectedFree ids want).map fun r =>
    ({ t with projectedFree := r.1, projectedVersion := t.projectedVersion + 1 }, r.2)

def applyAllocIds (t : InoTable) (ids : IntervalSet) : Option InoTable :=
  t.applyFree (.subtract ids)

def projectReleaseIds (t : InoTable) (ids : IntervalSet) : Option InoTable :=
  t.projectFree (.insertSet ids)

def applyReleaseIds (t : InoTable) (ids : IntervalSet) : Option InoTable :=
  t.applyFree (.insertSet ids)

/-- `replay_alloc_id`: a number not in `free` is only logged. -/
def replayAllocId (t : InoTable) (id : U64) : Option InoTable :=
  if (t.free.contains id).isSome then t.replayFree (.erase id 1) else some t.bumpVersion

/-- `replay_alloc_ids`: only the part of `ids` in `free` is taken. -/
def replayAllocIds (t : InoTable) (ids : IntervalSet) : Option InoTable :=
  (intersectionOf t.free ids).bind fun is =>
    if is = ids then t.replayFree (.subtract ids) else t.replayFree (.subtract is)

def replayReleaseIds (t : InoTable) (ids : IntervalSet) : Option InoTable :=
  t.replayFree (.insertSet ids)

/-- `skip_inos(i)`: drop the free numbers in `[first, first + i)`, `first` the least. -/
def skipInos (t : InoTable) (i : U64) : Option InoTable :=
  t.free.rangeStart.bind fun first =>
  ((empty.insert first i).map Prod.fst).bind fun s =>
  (intersectionOf s t.free).bind fun s =>
  (t.free.subtract s).map fun f => bumpVersion { t with free := f, projectedFree := f }

def replayReset (t : InoTable) : Option InoTable :=
  (t.skipInos 10000000).map fun t => bumpVersion { t with projectedFree := t.free }

def isMarkedFree (t : InoTable) (id : U64) : Bool :=
  (t.free.contains id).isSome || (t.projectedFree.contains id).isSome

/-- `intersects_free(other, &intersection)`. -/
def intersectsFree (t : InoTable) (other : IntervalSet) : Option (Bool × IntervalSet) :=
  (intersectionOf t.free other).map fun i => (!i.m.isEmpty, i)

/-- `repair(id)`: refused while updates are in flight; asserts that `id` is marked free. -/
def repair (t : InoTable) (id : U64) : Option (InoTable × Bool) :=
  if t.projectedVersion ≠ t.version then some (t, false)
  else if t.isMarkedFree id then (t.replayFree (.erase id 1)).map fun t => (t, true)
  else none

/-! ### What each update does -/

section Updates

variable {t t' : InoTable} {o : Op}

@[simp] theorem bumpVersion_free : t.bumpVersion.free = t.free := rfl

@[simp] theorem bumpVersion_projectedFree : t.bumpVersion.projectedFree = t.projectedFree := rfl

@[simp] theorem bumpVersion_version : t.bumpVersion.version = t.version + 1 := rfl

@[simp] theorem bumpVersion_projectedVersion : t.bumpVersion.projectedVersion = t.version + 1 :=
  rfl

theorem projectFree_eq_some (h : t.projectFree o = some t') :
    ∃ pf, o.exec t.projectedFree = some pf ∧
      t' = { t with projectedFree := pf, projectedVersion := t.projectedVersion + 1 } := by
  obtain ⟨pf, hexec, rfl⟩ := Option.map_eq_some_iff.mp h
  exact ⟨pf, hexec, rfl⟩

theorem applyFree_eq_some (h : t.applyFree o = some t') :
    ∃ f, o.exec t.free = some f ∧ t' = { t with free := f, version := t.version + 1 } := by
  obtain ⟨f, hexec, rfl⟩ := Option.map_eq_some_iff.mp h
  exact ⟨f, hexec, rfl⟩

/-- With `projected_free` equal to `free`, a replay update does the same to both. -/
theorem replayFree_eq_some (hp : t.projectedFree = t.free) (h : t.replayFree o = some t') :
    ∃ f, o.exec t.free = some f ∧ t' = bumpVersion { t with free := f, projectedFree := f } := by
  obtain ⟨f, hexec, h⟩ := Option.bind_eq_some_iff.mp h
  rw [hp, hexec, Option.map_some, Option.some.injEq] at h
  exact ⟨f, hexec, h.symm⟩

/-- `project_alloc_id` hands out a projected free number and erases it. -/
theorem projectAllocId_eq_some (hs : WF t.projectedFree) {id id' : U64}
    (h : t.projectAllocId id = some (t', id')) :
    id'.val ∈ t.projectedFree.den ∧ t.projectFree (.erase id' 1) = some t' := by
  obtain ⟨r, -, h⟩ := Option.bind_eq_some_iff.mp h
  obtain ⟨t'', hpf, heq⟩ := Option.map_eq_some_iff.mp h
  rw [Prod.mk.injEq] at heq
  obtain ⟨rfl, rfl⟩ := heq
  obtain ⟨pf, hexec, -⟩ := projectFree_eq_some hpf
  exact ⟨mem_of_erase_eq_some hs hexec, hpf⟩

/-- `reset_state` of a rank whose range ends below `2 ^ 64` frees exactly the range. -/
theorem resetState_spec (hrank : t.rank + 2 < 2 ^ 24) :
    ∃ f, t.resetState = some { t with free := f, projectedFree := f } ∧ WF f ∧
      f.den = inoRange t.rank := by
  have hstart : (Fin.ofNat (2 ^ 64) ((t.rank + 1) * 2 ^ 40) : U64).val = (t.rank + 1) * 2 ^ 40 :=
    Nat.mod_eq_of_lt (by omega)
  have hlen : (2 ^ 40 : U64).val = 2 ^ 40 := rfl
  obtain ⟨f, ps, pl, hins, hwf, hden, -⟩ := insert_spec wf_empty (by rw [hlen]; omega)
    (by rw [hstart, hlen]; omega) (by rw [den_empty]; exact Finset.disjoint_empty_left _)
    (by rw [hlen]; simp only [nat, empty, List.map_nil, total, List.sum_nil]; omega)
  refine ⟨f, by rw [resetState, hins]; rfl, hwf, ?_⟩
  rw [hden, den_empty, Finset.empty_union, hstart, hlen, inoRange,
    show (t.rank + 1) * 2 ^ 40 + 2 ^ 40 = (t.rank + 2) * 2 ^ 40 by omega]

/-- `skip_inos(i)` of a nonempty range that does not run past `2 ^ 64` from any free number
drops the free numbers in `[first, first + i)` from both sets. -/
theorem skipInos_eq_some (hs : WF t.free) {i : U64} (hi : i.val < 2 ^ 63)
    (hend : ∀ x ∈ t.free.den, x + i.val < 2 ^ 64) (h : t.skipInos i = some t') :
    ∃ f, WF f ∧ f.den ⊆ t.free.den ∧ t' = bumpVersion { t with free := f, projectedFree := f } := by
  obtain ⟨first, hfirst, h⟩ := Option.bind_eq_some_iff.mp h
  obtain ⟨s, hins, h⟩ := Option.bind_eq_some_iff.mp h
  obtain ⟨s', hint, h⟩ := Option.bind_eq_some_iff.mp h
  obtain ⟨f, hsub, rfl⟩ := Option.map_eq_some_iff.mp h
  have hne : t.free.m ≠ [] := fun hm => by simp [rangeStart, hm] at hfirst
  obtain ⟨r, hr, hmem, -⟩ := rangeStart_spec hs hne
  rw [hr, Option.some.injEq] at hfirst
  subst hfirst
  have hpos : 0 < i.val := by
    refine Nat.pos_of_ne_zero fun h0 => ?_
    have : i = 0 := Fin.ext h0
    simp [this, IntervalSet.insert] at hins
  obtain ⟨s₀, ps, pl, hins₀, hwf₀, -⟩ := insert_spec wf_empty hpos (hend r.val hmem)
    (by rw [den_empty]; exact Finset.disjoint_empty_left _)
    (by simp only [nat, empty, List.map_nil, total, List.sum_nil]; omega)
  rw [hins₀, Option.map_some, Option.some.injEq] at hins
  subst hins
  obtain ⟨s₁, hint₁, hwf₁, hden₁⟩ := intersectionOf_spec hwf₀ hs
  rw [hint₁, Option.some.injEq] at hint
  subst hint
  obtain ⟨f₁, hsub₁, hwf, hden⟩ := subtract_spec hs hwf₁ (by rw [hden₁]; exact Finset.inter_subset_right)
  rw [hsub₁, Option.some.injEq] at hsub
  subst hsub
  exact ⟨f₁, hwf, by rw [hden]; exact Finset.sdiff_subset, rfl⟩

end Updates

/-! ### The loop of `project_alloc_ids` -/

/-- What the loop leaves: the `want` least numbers of `projectedFree` moved into `ids`. -/
structure Allocated (projectedFree ids : IntervalSet) (want : ℕ) (r : IntervalSet × IntervalSet) :
    Prop where
  projected_wf : WF r.1
  ids_wf : WF r.2
  projected_den : r.1.den = projectedFree.den \ firstN projectedFree.den want
  ids_den : r.2.den = ids.den ∪ firstN projectedFree.den want
  card : r.2.den.card = ids.den.card + want

section Loop

variable {pf ids : IntervalSet} {want : ℕ}

theorem projectAllocIdsLoop_zero (fuel : ℕ) (pf ids : IntervalSet) :
    projectAllocIdsLoop fuel pf ids 0 = some (pf, ids) := by
  unfold projectAllocIdsLoop
  rw [if_pos rfl]

theorem allocated_zero (hpf : WF pf) (hids : WF ids) : Allocated pf ids 0 (pf, ids) where
  projected_wf := hpf
  ids_wf := hids
  projected_den := by rw [firstN_zero, Finset.sdiff_empty]
  ids_den := by rw [firstN_zero, Finset.union_empty]
  card := rfl

/-- The first run of a nonempty set: from `range_start()` up to `end_after` of it. The rest
of the set lies past its end. -/
theorem firstRun_spec (hs : WF pf) (hne : pf.den.Nonempty) :
    ∃ start en : U64, pf.rangeStart = some start ∧ pf.endAfter start = some en ∧
      start.val < en.val ∧ Finset.Ico start.val en.val ⊆ pf.den ∧
      ∀ y ∈ pf.den \ Finset.Ico start.val en.val, en.val ≤ y := by
  have hm : pf.m ≠ [] := fun hm => by
    rw [← hs.den_eq_empty] at hm
    rw [hm] at hne
    exact Finset.not_nonempty_empty hne
  obtain ⟨start, hrs, hstart, hmin⟩ := rangeStart_spec hs hm
  obtain ⟨en, hen, hlt, hsub, -⟩ := endAfter_spec hs hstart
  refine ⟨start, en, hrs, hen, hlt, hsub, fun y hy => ?_⟩
  rw [Finset.mem_sdiff, Finset.mem_Ico] at hy
  have := hmin y hy.1
  omega

/-- One round: `num` numbers from the start of the first run leave `pf` and join `ids`. -/
theorem allocRound (hpf : WF pf) (hids : WF ids) (hdisj : Disjoint ids.den pf.den)
    (hcard : (ids.den ∪ pf.den).card < 2 ^ 63) (start num : U64) (hnum : 0 < num.val)
    (hend : start.val + num.val < 2 ^ 64) (hsub : range start num ⊆ pf.den) :
    ∃ pf' ids' ps pl, pf.erase start num none = some pf' ∧ ids.insert start num = some (ids', ps, pl) ∧
      WF pf' ∧ WF ids' ∧ pf'.den = pf.den \ range start num ∧ ids'.den = ids.den ∪ range start num := by
  obtain ⟨pf', herase, hpf', hden⟩ := erase_spec hpf hnum hsub
  have hdisj' : Disjoint ids.den (range start num) := hdisj.mono_right hsub
  have hcard' : (ids.den ∪ range start num).card < 2 ^ 63 :=
    lt_of_le_of_lt (Finset.card_le_card (Finset.union_subset_union_right hsub)) hcard
  have htot := total_add_lt hids hdisj' hcard'
  rw [range, Nat.card_Ico, Nat.add_sub_cancel_left] at htot
  obtain ⟨ids', ps, pl, hins, hids', hden', -⟩ := insert_spec hids hnum hend hdisj' htot
  exact ⟨pf', ids', ps, pl, herase, hins, hpf', hids', hden, hden'⟩

/-- A round that takes the whole first run `[start, en)`: what is left of `pf` is the rest
past `en`, and `ids` and `pf` stay disjoint with the same union. -/
theorem allocWholeRun (hpf : WF pf) (hids : WF ids) (hdisj : Disjoint ids.den pf.den)
    (hcard : (ids.den ∪ pf.den).card < 2 ^ 63) {start en : U64} (hse : start.val < en.val)
    (hsub : Finset.Ico start.val en.val ⊆ pf.den) :
    ∃ pf' ids' ps pl, pf.erase start (en - start) none = some pf' ∧
      ids.insert start (en - start) = some (ids', ps, pl) ∧ WF pf' ∧ WF ids' ∧
      pf'.den = pf.den \ Finset.Ico start.val en.val ∧
      ids'.den = ids.den ∪ Finset.Ico start.val en.val ∧
      Disjoint ids'.den pf'.den ∧ ids'.den ∪ pf'.den = ids.den ∪ pf.den := by
  have hrun : (en - start).val = en.val - start.val :=
    Fin.coe_sub_iff_le.mpr (Fin.le_def.mpr hse.le)
  have hrange : range start (en - start) = Finset.Ico start.val en.val := by
    rw [range, hrun, Nat.add_sub_cancel' hse.le]
  obtain ⟨pf', ids', ps, pl, herase, hins, hpf', hids', hden, hden'⟩ :=
    allocRound hpf hids hdisj hcard start (en - start) (by rw [hrun]; omega)
      (by rw [hrun]; have := en.isLt; omega) (by rw [hrange]; exact hsub)
  rw [hrange] at hden hden'
  refine ⟨pf', ids', ps, pl, herase, hins, hpf', hids', hden, hden', ?_, ?_⟩
  · rw [hden, hden', Finset.disjoint_union_left]
    exact ⟨hdisj.mono_right Finset.sdiff_subset, Finset.disjoint_sdiff⟩
  · rw [hden, hden', Finset.union_assoc, Finset.union_sdiff_of_subset hsub]

/-- With at least `want` projected free numbers, the loop takes the `want` least of them. -/
theorem projectAllocIdsLoop_spec (fuel : ℕ) : ∀ (pf ids : IntervalSet) (want : ℕ), WF pf →
    WF ids → Disjoint ids.den pf.den → (ids.den ∪ pf.den).card < 2 ^ 63 → want ≤ fuel →
    want ≤ pf.den.card → want < 2 ^ 64 →
    ∃ r, projectAllocIdsLoop fuel pf ids want = some r ∧ Allocated pf ids want r := by
  induction fuel with
  | zero =>
    intro pf ids want hpf hids _ _ hfuel _ _
    rw [Nat.le_zero.mp hfuel]
    exact ⟨_, projectAllocIdsLoop_zero 0 pf ids, allocated_zero hpf hids⟩
  | succ fuel ih =>
    intro pf ids want hpf hids hdisj hcard hfuel hwant hlt
    rcases Nat.eq_zero_or_pos want with rfl | hpos
    · exact ⟨_, projectAllocIdsLoop_zero _ pf ids, allocated_zero hpf hids⟩
    obtain ⟨start, en, hrs, hen, hse, hsub, hX⟩ :=
      firstRun_spec hpf (Finset.card_pos.mp (by omega))
    have hsplit : Finset.Ico start.val en.val ∪ (pf.den \ Finset.Ico start.val en.val) = pf.den :=
      Finset.union_sdiff_of_subset hsub
    have hrun : (en - start).val = en.val - start.val :=
      Fin.coe_sub_iff_le.mpr (Fin.le_def.mpr hse.le)
    have hwantv : (Fin.ofNat (2 ^ 64) want : U64).val = want := Nat.mod_eq_of_lt hlt
    unfold projectAllocIdsLoop
    rw [if_neg hpos.ne']
    dsimp only
    rw [hrs, Option.bind_some, hen, Option.bind_some]
    by_cases hcut : (Fin.ofNat (2 ^ 64) want : U64) < en - start
    · rw [if_pos hcut]
      rw [Fin.lt_def, hwantv, hrun] at hcut
      have hsubA : range start (Fin.ofNat (2 ^ 64) want) ⊆ pf.den := by
        rw [range, hwantv]
        exact (Finset.Ico_subset_Ico_right (by omega)).trans hsub
      obtain ⟨pf', ids', ps, pl, herase, hins, hpf', hids', hden, hden'⟩ :=
        allocRound hpf hids hdisj hcard start _ (by rw [hwantv]; exact hpos)
          (by rw [hwantv]; have := en.isLt; omega) hsubA
      have hfirst : firstN pf.den want = range start (Fin.ofNat (2 ^ 64) want) := by
        rw [← hsplit, firstN_Ico_union_of_le hse.le hX (by omega), range, hwantv]
      rw [herase, Option.bind_some, hins, Option.bind_some, hwantv, Nat.sub_self,
        projectAllocIdsLoop_zero]
      refine ⟨_, rfl, hpf', hids', by rw [hden, hfirst], by rw [hden', hfirst], ?_⟩
      rw [hden', Finset.card_union_of_disjoint (hdisj.mono_right hsubA), range, Nat.card_Ico,
        hwantv, Nat.add_sub_cancel_left]
    · rw [if_neg hcut]
      rw [Fin.lt_def, hwantv, hrun, not_lt] at hcut
      obtain ⟨pf', ids', ps, pl, herase, hins, hpf', hids', hden, hden', hdisj', hunion⟩ :=
        allocWholeRun hpf hids hdisj hcard hse hsub
      have hcardX : (en.val - start.val) + pf'.den.card = pf.den.card := by
        rw [hden, ← Nat.card_Ico, ← Finset.card_union_of_disjoint Finset.disjoint_sdiff, hsplit]
      obtain ⟨r, hr, hres⟩ := ih pf' ids' (want - (en.val - start.val)) hpf' hids' hdisj'
        (by rw [hunion]; exact hcard) (by omega) (by omega) (by omega)
      have hfirst : firstN pf.den want =
          Finset.Ico start.val en.val ∪ firstN pf'.den (want - (en.val - start.val)) := by
        rw [hden, ← hsplit, firstN_Ico_union_of_ge hse.le hX hcut, hsplit]
      rw [herase, Option.bind_some, hins, Option.bind_some, hrun]
      refine ⟨r, hr, hres.projected_wf, hres.ids_wf, ?_, ?_, ?_⟩
      · rw [hres.projected_den, hfirst, hden, sdiff_sdiff_left, Finset.sup_eq_union]
      · rw [hres.ids_den, hden', hfirst, Finset.union_assoc]
      · rw [hres.card, hden', Finset.card_union_of_disjoint (hdisj.mono_right hsub),
          Nat.card_Ico]
        omega

/-- With fewer than `want` projected free numbers the loop empties `projected_free`, and
`range_start()` of the empty set fails its assertion. -/
theorem projectAllocIdsLoop_eq_none (fuel : ℕ) : ∀ (pf ids : IntervalSet) (want : ℕ), WF pf →
    WF ids → Disjoint ids.den pf.den → (ids.den ∪ pf.den).card < 2 ^ 63 →
    pf.den.card < want → want < 2 ^ 64 → projectAllocIdsLoop fuel pf ids want = none := by
  induction fuel with
  | zero =>
    intro pf ids want _ _ _ _ hwant _
    unfold projectAllocIdsLoop
    rw [if_neg (by omega)]
  | succ fuel ih =>
    intro pf ids want hpf hids hdisj hcard hwant hlt
    unfold projectAllocIdsLoop
    rw [if_neg (by omega)]
    dsimp only
    rcases Finset.eq_empty_or_nonempty pf.den with hempty | hne
    · have hnone : pf.rangeStart = none := by simp [rangeStart, hpf.den_eq_empty.mp hempty]
      rw [hnone, Option.bind_none]
    obtain ⟨start, en, hrs, hen, hse, hsub, -⟩ := firstRun_spec hpf hne
    have hrun : (en - start).val = en.val - start.val :=
      Fin.coe_sub_iff_le.mpr (Fin.le_def.mpr hse.le)
    obtain ⟨pf', ids', ps, pl, herase, hins, hpf', hids', hden, -, hdisj', hunion⟩ :=
      allocWholeRun hpf hids hdisj hcard hse hsub
    have hcardX : (en.val - start.val) + pf'.den.card = pf.den.card := by
      rw [hden, ← Nat.card_Ico, ← Finset.card_union_of_disjoint Finset.disjoint_sdiff,
        Finset.union_sdiff_of_subset hsub]
    have hcut : ¬ (Fin.ofNat (2 ^ 64) want : U64) < en - start := by
      rw [Fin.lt_def, hrun, Fin.val_ofNat, Nat.mod_eq_of_lt hlt]
      omega
    rw [hrs, Option.bind_some, hen, Option.bind_some, if_neg hcut, herase, Option.bind_some, hins,
      Option.bind_some, hrun]
    exact ih pf' ids' _ hpf' hids' hdisj' (by rw [hunion]; exact hcard) (by omega) (by omega)

end Loop

section Ids

variable {t t' : InoTable} {ids ids' : IntervalSet} {want : ℕ}

/-- `project_alloc_ids` with at least `want` projected free numbers takes the `want` least. -/
theorem projectAllocIds_spec (hpf : WF t.projectedFree) (hids : WF ids)
    (hdisj : Disjoint ids.den t.projectedFree.den)
    (hcard : (ids.den ∪ t.projectedFree.den).card < 2 ^ 63)
    (hwant : want ≤ t.projectedFree.den.card) (hlt : want < 2 ^ 64) :
    ∃ pf ids', t.projectAllocIds ids want =
        some ({ t with projectedFree := pf, projectedVersion := t.projectedVersion + 1 }, ids') ∧
      Allocated t.projectedFree ids want (pf, ids') := by
  obtain ⟨r, hr, hres⟩ := projectAllocIdsLoop_spec want _ ids want hpf hids hdisj hcard le_rfl hwant hlt
  exact ⟨r.1, r.2, by rw [projectAllocIds, hr]; rfl, hres⟩

/-- What a `project_alloc_ids` that returns did: there were `want` projected free numbers, and
it took the least of them. -/
theorem projectAllocIds_eq_some (hpf : WF t.projectedFree) (hids : WF ids)
    (hdisj : Disjoint ids.den t.projectedFree.den)
    (hcard : (ids.den ∪ t.projectedFree.den).card < 2 ^ 63) (hlt : want < 2 ^ 64)
    (h : t.projectAllocIds ids want = some (t', ids')) :
    want ≤ t.projectedFree.den.card ∧ ∃ pf, Allocated t.projectedFree ids want (pf, ids') ∧
      t' = { t with projectedFree := pf, projectedVersion := t.projectedVersion + 1 } := by
  by_cases hwant : want ≤ t.projectedFree.den.card
  · obtain ⟨pf, ids'', hr, hres⟩ := projectAllocIds_spec hpf hids hdisj hcard hwant hlt
    rw [hr, Option.some.injEq, Prod.mk.injEq] at h
    obtain ⟨rfl, rfl⟩ := h
    exact ⟨hwant, pf, hres, rfl⟩
  · rw [projectAllocIds, projectAllocIdsLoop_eq_none want _ ids want hpf hids hdisj hcard
      (not_le.mp hwant) hlt] at h
    cases h

end Ids

end InoTable

end Lunule
