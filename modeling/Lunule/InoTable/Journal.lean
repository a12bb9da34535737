import Lunule.InoTable.Basic

/-!
The ino table under journaling. `Journaled` keeps beside the table the projections not yet
applied, oldest first, each as the update its `apply_*` makes; the numbers handed out by
`project_alloc_*` and not released since; and the numbers the last call handed out. A run
starts from `reset_state()` or a decoded table, applies projections in journal order, and
replays, skips and repairs only with no projection pending.

Along such a run `projected_free` is `free` with the pending updates applied in order, and
those updates always succeed; every number handed out is projected free, so not handed out
already, and lies in the rank's range; and `project_alloc_ids` hands out exactly `want`
numbers whenever there are that many. The order matters: a number allocated, released and
allocated again is both "allocated" and "released" in the journal, and `free` minus the
allocated numbers plus the released ones then holds it although `projected_free` does not.
The range needs the released numbers to lie in it: a released number from outside is handed
out again.
-/

namespace Lunule.InoTable

open IntervalSet Intervals Runs

/-- The table with the journal's view of it. -/
structure Journaled where
  table : InoTable
  pending : List Op
  handedOut : Finset ℕ
  returned : Finset ℕ

inductive Event where
  | projectAllocId (id : U64)
  | projectAllocIds (want : ℕ)
  | projectReleaseIds (ids : IntervalSet)
  /-- The `apply_*` of the oldest pending projection. -/
  | applyNext
  | replayAllocId (id : U64)
  | replayAllocIds (ids : IntervalSet)
  | replayReleaseIds (ids : IntervalSet)
  | replayReset
  | skipInos (i : U64)
  | repair (id : U64)

namespace Journaled

/-- One call. A `project_alloc_*` is called with a fresh `ids` and hands out what it
returns; a release takes the released numbers back. -/
def step (j : Journaled) : Event → Option Journaled
  | .projectAllocId id => (j.table.projectAllocId id).map fun r =>
      ⟨r.1, j.pending ++ [.erase r.2 1], insert r.2.val j.handedOut, {r.2.val}⟩
  | .projectAllocIds want => (j.table.projectAllocIds empty want).map fun r =>
      ⟨r.1, j.pending ++ [.subtract r.2], j.handedOut ∪ r.2.den, r.2.den⟩
  | .projectReleaseIds ids => (j.table.projectReleaseIds ids).map fun t =>
      ⟨t, j.pending ++ [.insertSet ids], j.handedOut \ ids.den, ∅⟩
  | .applyNext =>
    match j.pending with
    | [] => none
    | o :: os => (j.table.applyFree o).map fun t => ⟨t, os, j.handedOut, ∅⟩
  | .replayAllocId id => (j.table.replayAllocId id).map fun t => ⟨t, j.pending, j.handedOut, ∅⟩
  | .replayAllocIds ids =>
    (j.table.replayAllocIds ids).map fun t => ⟨t, j.pending, j.handedOut, ∅⟩
  | .replayReleaseIds ids => (j.table.replayReleaseIds ids).map fun t =>
      ⟨t, j.pending, j.handedOut \ ids.den, ∅⟩
  | .replayReset => j.table.replayReset.map fun t => ⟨t, j.pending, j.handedOut, ∅⟩
  | .skipInos i => (j.table.skipInos i).map fun t => ⟨t, j.pending, j.handedOut, ∅⟩
  | .repair id => (j.table.repair id).map fun r => ⟨r.1, j.pending, j.handedOut, ∅⟩

/-- What each call is made with: released numbers lie in the rank's range and are not free,
`want` is an `int`, `skip_inos` skips at most the range, and replay and `skip_inos` come with
no projection pending. -/
def Allowed (rank : ℕ) (j : Journaled) : Event → Prop
  | .projectAllocId _ => True
  | .projectAllocIds want => want < 2 ^ 31
  | .projectReleaseIds ids =>
    WF ids ∧ ids.den ⊆ inoRange rank ∧ Disjoint j.table.projectedFree.den ids.den
  | .applyNext => True
  | .replayAllocId _ => j.pending = []
  | .replayAllocIds ids => j.pending = [] ∧ WF ids
  | .replayReleaseIds ids =>
    j.pending = [] ∧ WF ids ∧ ids.den ⊆ inoRange rank ∧ Disjoint j.table.free.den ids.den
  | .replayReset => j.pending = []
  | .skipInos i => j.pending = [] ∧ i.val ≤ 2 ^ 40
  | .repair _ => True

/-- The tables a run starts from: `reset_state()` of a new table, or a decoded table whose
free numbers lie in the rank's range. -/
inductive Start (rank : ℕ) : Journaled → Prop
  | reset (t : InoTable) : (initial rank).resetState = some t → Start rank ⟨t, [], ∅, ∅⟩
  | decode (free : IntervalSet) (version : ℕ) : WF free → free.den ⊆ inoRange rank →
      Start rank ⟨decodeState rank free version, [], ∅, ∅⟩

end Journaled

/-- An update that keeps a set of numbers inside `R`. -/
def StaysIn (R : Finset ℕ) (o : Op) : Prop := ∀ X ⊆ R, o.sem X ⊆ R

section StaysIn

variable {R : Finset ℕ}

theorem staysIn_erase (start len : U64) : StaysIn R (.erase start len) :=
  fun _ hX => Finset.sdiff_subset.trans hX

theorem staysIn_subtract (a : IntervalSet) : StaysIn R (.subtract a) :=
  fun _ hX => Finset.sdiff_subset.trans hX

theorem staysIn_insertSet {a : IntervalSet} (h : a.den ⊆ R) : StaysIn R (.insertSet a) :=
  fun _ hX => Finset.union_subset hX h

end StaysIn

theorem range_one (id : U64) : range id 1 = {id.val} := by
  rw [range, show (1 : U64).val = 1 from rfl, Nat.Ico_succ_singleton]

theorem card_inoRange (rank : ℕ) : (inoRange rank).card = 2 ^ 40 := by
  rw [inoRange, Nat.card_Ico]
  omega

theorem card_union_lt_of_subset_inoRange {rank : ℕ} {X Y : Finset ℕ} (hX : X ⊆ inoRange rank)
    (hY : Y ⊆ inoRange rank) : (X ∪ Y).card < 2 ^ 63 := by
  have := Finset.card_le_card (Finset.union_subset hX hY)
  rw [card_inoRange] at this
  omega

namespace Journaled

/-- The invariant of journaled runs: both sets well formed and in the rank's range, the
pending updates valid on `free` in order and leading to `projected_free`, nothing handed out
still projected free, and one version step per pending projection. -/
structure Inv (rank : ℕ) (j : Journaled) : Prop where
  free_wf : WF j.table.free
  projected_wf : WF j.table.projectedFree
  valid : ValidRun j.table.free j.pending
  projected_den : j.table.projectedFree.den = j.pending.foldl Op.sem j.table.free.den
  free_within : j.table.free.den ⊆ inoRange rank
  projected_within : j.table.projectedFree.den ⊆ inoRange rank
  pending_within : ∀ o ∈ j.pending, StaysIn (inoRange rank) o
  handed_out : Disjoint j.table.projectedFree.den j.handedOut
  versions : j.table.projectedVersion = j.table.version + j.pending.length

section Inv

variable {rank : ℕ} {j j' : Journaled} {t t' : InoTable} {o : Op} {os : List Op}
  {f pf : IntervalSet} {H R : Finset ℕ}

theorem Inv.projected_eq_free (hI : Inv rank j) (hp : j.pending = []) :
    j.table.projectedFree = j.table.free :=
  WF.eq_of_den_eq hI.projected_wf hI.free_wf (by rw [hI.projected_den, hp, List.foldl_nil])

/-- `returned` is not part of the invariant. -/
theorem Inv.with_returned (hI : Inv rank ⟨t, os, H, R⟩) (R' : Finset ℕ) :
    Inv rank ⟨t, os, H, R'⟩ :=
  ⟨hI.free_wf, hI.projected_wf, hI.valid, hI.projected_den, hI.free_within, hI.projected_within,
    hI.pending_within, hI.handed_out, hI.versions⟩

/-- A projection: `projected_free` updated by `o`, which joins the journal. -/
theorem Inv.project (hI : Inv rank j) (hpre : o.pre j.table.projectedFree)
    (hstay : StaysIn (inoRange rank) o) (hwf : WF pf) (hden : pf.den = o.sem j.table.projectedFree.den)
    (hH : Disjoint pf.den H) (R' : Finset ℕ) :
    Inv rank
      ⟨{ j.table with projectedFree := pf, projectedVersion := j.table.projectedVersion + 1 },
        j.pending ++ [o], H, R'⟩ where
  free_wf := hI.free_wf
  projected_wf := hwf
  valid := validRun_append o j.pending j.table.free j.table.projectedFree hI.free_wf hI.valid
    hI.projected_den hpre
  projected_den := by
    dsimp only
    rw [hden, List.foldl_append, ← hI.projected_den, List.foldl_cons, List.foldl_nil]
  free_within := hI.free_within
  projected_within := by
    dsimp only
    rw [hden]
    exact hstay _ hI.projected_within
  pending_within := by
    intro o' ho'
    rcases List.mem_append.mp ho' with ho' | ho'
    · exact hI.pending_within o' ho'
    · rw [List.mem_singleton.mp ho']
      exact hstay
  handed_out := hH
  versions := by
    dsimp only
    rw [hI.versions, List.length_append, List.length_singleton]
    omega

/-- An `apply_*`: the oldest projection's update made to `free`. -/
theorem Inv.apply (hI : Inv rank ⟨t, o :: os, H, R⟩) (hexec : o.exec t.free = some f)
    (R' : Finset ℕ) : Inv rank ⟨{ t with free := f, version := t.version + 1 }, os, H, R'⟩ := by
  obtain ⟨hpre, hnext⟩ := hI.valid
  obtain ⟨hwf, hden⟩ := Op.exec_eq_some hI.free_wf hpre hexec
  have hstay := hI.pending_within o List.mem_cons_self
  refine ⟨hwf, hI.projected_wf, hnext f hexec, ?_, ?_, hI.projected_within,
    fun o' ho' => hI.pending_within o' (List.mem_cons_of_mem o ho'), hI.handed_out, ?_⟩
  · dsimp only
    rw [hden, hI.projected_den, List.foldl_cons]
  · dsimp only
    rw [hden]
    exact hstay _ hI.free_within
  · have := hI.versions
    simp only [List.length_cons] at this ⊢
    omega

/-- After a replay, `skip_inos` or repair both sets are one set and nothing is pending. -/
theorem inv_settled (hf : WF t.free) (hp : t.projectedFree = t.free)
    (hR : t.free.den ⊆ inoRange rank) (hH : Disjoint t.free.den H) :
    Inv rank ⟨bumpVersion t, [], H, R⟩ where
  free_wf := hf
  projected_wf := by
    show WF t.projectedFree
    rw [hp]
    exact hf
  valid := trivial
  projected_den := by
    show t.projectedFree.den = t.free.den
    rw [hp]
  free_within := hR
  projected_within := by
    show t.projectedFree.den ⊆ _
    rw [hp]
    exact hR
  pending_within := fun _ ho => absurd ho List.not_mem_nil
  handed_out := by
    show Disjoint t.projectedFree.den H
    rw [hp]
    exact hH
  versions := rfl

/-- A replay update `o` of both sets, with nothing pending. -/
theorem Inv.replay (hI : Inv rank j) (hp : j.pending = []) (h : j.table.replayFree o = some t')
    (hpre : o.pre j.table.free) (hstay : StaysIn (inoRange rank) o)
    (hH : Disjoint (o.sem j.table.free.den) H) : Inv rank ⟨t', [], H, R⟩ := by
  obtain ⟨f, hexec, rfl⟩ := replayFree_eq_some (hI.projected_eq_free hp) h
  obtain ⟨hwf, hden⟩ := Op.exec_eq_some hI.free_wf hpre hexec
  rw [← hden] at hH
  exact inv_settled hwf rfl (hden ▸ hstay _ hI.free_within) hH

theorem Inv.free_disjoint (hI : Inv rank j) (hp : j.pending = []) :
    Disjoint j.table.free.den j.handedOut := by
  rw [← hI.projected_eq_free hp]
  exact hI.handed_out

theorem add_lt_of_mem_inoRange (hrank : rank + 2 < 2 ^ 24) {x i : ℕ} (hx : x ∈ inoRange rank)
    (hi : i ≤ 2 ^ 40) : x + i < 2 ^ 64 := by
  rw [inoRange, Finset.mem_Ico] at hx
  omega

/-- Replaying the allocation of one free number keeps the invariant. -/
theorem Inv.replay_one (hI : Inv rank j) (hp : j.pending = []) {id : U64}
    (hmem : id.val ∈ j.table.free.den) (h : j.table.replayFree (.erase id 1) = some t')
    (R : Finset ℕ) : Inv rank ⟨t', [], j.handedOut, R⟩ :=
  hI.replay hp h ⟨Nat.one_pos, by rw [range_one, Finset.singleton_subset_iff]; exact hmem⟩
    (staysIn_erase _ _) ((hI.free_disjoint hp).mono_left Finset.sdiff_subset)

/-- `project_alloc_id`: the number handed out leaves `projected_free`. -/
theorem Inv.step_projectAllocId (hI : Inv rank j) {id : U64}
    (h : j.step (.projectAllocId id) = some j') :
    Inv rank j' ∧ j'.returned ⊆ j.table.projectedFree.den := by
  obtain ⟨⟨t', id'⟩, hr, rfl⟩ := Option.map_eq_some_iff.mp h
  obtain ⟨hmem, hpf⟩ := projectAllocId_eq_some hI.projected_wf hr
  obtain ⟨pf, hexec, rfl⟩ := projectFree_eq_some hpf
  have hpre : (Op.erase id' 1).pre j.table.projectedFree := by
    refine ⟨Nat.one_pos, ?_⟩
    rw [range_one, Finset.singleton_subset_iff]
    exact hmem
  obtain ⟨hwf, hden⟩ := Op.exec_eq_some hI.projected_wf hpre hexec
  refine ⟨hI.project hpre (staysIn_erase _ _) hwf hden ?_ _, Finset.singleton_subset_iff.mpr hmem⟩
  rw [hden, Op.sem, range_one, Finset.disjoint_insert_right]
  exact ⟨fun hin => (Finset.mem_sdiff.mp hin).2 (Finset.mem_singleton_self _),
    hI.handed_out.mono_left Finset.sdiff_subset⟩

/-- `project_alloc_ids`: the numbers handed out leave `projected_free`. -/
theorem Inv.step_projectAllocIds (hI : Inv rank j) {want : ℕ}
    (hA : Allowed rank j (.projectAllocIds want)) (h : j.step (.projectAllocIds want) = some j') :
    Inv rank j' ∧ j'.returned ⊆ j.table.projectedFree.den := by
  have hlt : want < 2 ^ 31 := hA
  obtain ⟨⟨t', ids'⟩, hr, rfl⟩ := Option.map_eq_some_iff.mp h
  obtain ⟨-, pf, hres, rfl⟩ := projectAllocIds_eq_some hI.projected_wf wf_empty
    (by rw [den_empty]; exact Finset.disjoint_empty_left _)
    (by rw [den_empty, Finset.empty_union]; exact hI.projected_wf.card_lt) (by omega) hr
  have hids : ids'.den = firstN j.table.projectedFree.den want := by
    rw [hres.ids_den, den_empty, Finset.empty_union]
  have hsub : ids'.den ⊆ j.table.projectedFree.den := hids ▸ firstN_subset _ _
  have hpre : (Op.subtract ids').pre j.table.projectedFree := ⟨hres.ids_wf, hsub⟩
  refine ⟨hI.project hpre (staysIn_subtract _) hres.projected_wf ?_ ?_ _, hsub⟩
  · rw [hres.projected_den, ← hids]
    rfl
  · rw [hres.projected_den, ← hids, Finset.disjoint_union_right]
    exact ⟨hI.handed_out.mono_left Finset.sdiff_subset, Finset.sdiff_disjoint⟩

/-- `project_release_ids`: the released numbers join `projected_free`. -/
theorem Inv.step_projectReleaseIds (hI : Inv rank j) {ids : IntervalSet}
    (hA : Allowed rank j (.projectReleaseIds ids)) (h : j.step (.projectReleaseIds ids) = some j') :
    Inv rank j' ∧ j'.returned ⊆ j.table.projectedFree.den := by
  obtain ⟨hids, hR, hdisj⟩ := hA
  obtain ⟨t', hr, rfl⟩ := Option.map_eq_some_iff.mp h
  obtain ⟨pf, hexec, rfl⟩ := projectFree_eq_some hr
  have hpre : (Op.insertSet ids).pre j.table.projectedFree :=
    ⟨hids, hdisj, card_union_lt_of_subset_inoRange hI.projected_within hR⟩
  obtain ⟨hwf, hden⟩ := Op.exec_eq_some hI.projected_wf hpre hexec
  refine ⟨hI.project hpre (staysIn_insertSet hR) hwf hden ?_ _, Finset.empty_subset _⟩
  rw [hden]
  exact Finset.disjoint_union_left.mpr
    ⟨hI.handed_out.mono_right Finset.sdiff_subset, Finset.disjoint_sdiff⟩

/-- An `apply_*` of the oldest pending projection. -/
theorem Inv.step_applyNext (hI : Inv rank j)
    (h : j.step (.applyNext) = some j') :
    Inv rank j' ∧ j'.returned ⊆ j.table.projectedFree.den := by
  obtain ⟨t, pending, H, R⟩ := j
  cases pending with
  | nil => simp [step] at h
  | cons o os =>
    obtain ⟨t', hr, rfl⟩ := Option.map_eq_some_iff.mp h
    obtain ⟨f, hexec, rfl⟩ := applyFree_eq_some hr
    exact ⟨hI.apply hexec _, Finset.empty_subset _⟩

/-- `replay_alloc_id`. -/
theorem Inv.step_replayAllocId (hI : Inv rank j) {id : U64}
    (hA : Allowed rank j (.replayAllocId id)) (h : j.step (.replayAllocId id) = some j') :
    Inv rank j' ∧ j'.returned ⊆ j.table.projectedFree.den := by
  have hp : j.pending = [] := hA
  obtain ⟨t', hr, rfl⟩ := Option.map_eq_some_iff.mp h
  refine ⟨?_, Finset.empty_subset _⟩
  rw [hp]
  unfold replayAllocId at hr
  by_cases hc : (j.table.free.contains id).isSome
  · rw [if_pos hc] at hr
    exact hI.replay_one hp ((contains_isSome hI.free_wf id).mp hc) hr _
  · rw [if_neg hc, Option.some.injEq] at hr
    subst hr
    exact inv_settled hI.free_wf (hI.projected_eq_free hp) hI.free_within (hI.free_disjoint hp)

/-- `replay_alloc_ids`. -/
theorem Inv.step_replayAllocIds (hI : Inv rank j) {ids : IntervalSet}
    (hA : Allowed rank j (.replayAllocIds ids)) (h : j.step (.replayAllocIds ids) = some j') :
    Inv rank j' ∧ j'.returned ⊆ j.table.projectedFree.den := by
  obtain ⟨hp, hids⟩ := hA
  obtain ⟨t', hr, rfl⟩ := Option.map_eq_some_iff.mp h
  refine ⟨?_, Finset.empty_subset _⟩
  rw [hp]
  obtain ⟨is, his, hr⟩ := Option.bind_eq_some_iff.mp hr
  obtain ⟨is', his', hwf, hden⟩ := intersectionOf_spec hI.free_wf hids
  rw [his', Option.some.injEq] at his
  subst his
  have hr' : j.table.replayFree (.subtract is') = some t' := by
    split_ifs at hr with heq
    · rw [heq]
      exact hr
    · exact hr
  exact hI.replay hp hr' ⟨hwf, by rw [hden]; exact Finset.inter_subset_left⟩
    (staysIn_subtract _) ((hI.free_disjoint hp).mono_left Finset.sdiff_subset)

/-- `replay_release_ids`. -/
theorem Inv.step_replayReleaseIds (hI : Inv rank j) {ids : IntervalSet}
    (hA : Allowed rank j (.replayReleaseIds ids)) (h : j.step (.replayReleaseIds ids) = some j') :
    Inv rank j' ∧ j'.returned ⊆ j.table.projectedFree.den := by
  obtain ⟨hp, hids, hR, hdisj⟩ := hA
  obtain ⟨t', hr, rfl⟩ := Option.map_eq_some_iff.mp h
  refine ⟨?_, Finset.empty_subset _⟩
  rw [hp]
  exact hI.replay hp hr ⟨hids, hdisj, card_union_lt_of_subset_inoRange hI.free_within hR⟩
    (staysIn_insertSet hR) (Finset.disjoint_union_left.mpr
      ⟨(hI.free_disjoint hp).mono_right Finset.sdiff_subset, Finset.disjoint_sdiff⟩)

/-- `replay_reset`. -/
theorem Inv.step_replayReset (hrank : rank + 2 < 2 ^ 24) (hI : Inv rank j)
    (hA : Allowed rank j (.replayReset)) (h : j.step (.replayReset) = some j') :
    Inv rank j' ∧ j'.returned ⊆ j.table.projectedFree.den := by
  have hp : j.pending = [] := hA
  obtain ⟨t', hr, rfl⟩ := Option.map_eq_some_iff.mp h
  obtain ⟨t₁, hskip, rfl⟩ := Option.map_eq_some_iff.mp hr
  obtain ⟨f, hwf, hsub, rfl⟩ := skipInos_eq_some hI.free_wf (by decide)
    (fun x hx => add_lt_of_mem_inoRange hrank (hI.free_within hx) (by decide)) hskip
  refine ⟨?_, Finset.empty_subset _⟩
  rw [hp]
  exact inv_settled hwf rfl (hsub.trans hI.free_within) ((hI.free_disjoint hp).mono_left hsub)

/-- `skip_inos`. -/
theorem Inv.step_skipInos (hrank : rank + 2 < 2 ^ 24) (hI : Inv rank j) {i : U64}
    (hA : Allowed rank j (.skipInos i)) (h : j.step (.skipInos i) = some j') :
    Inv rank j' ∧ j'.returned ⊆ j.table.projectedFree.den := by
  obtain ⟨hp, hi⟩ := hA
  obtain ⟨t', hr, rfl⟩ := Option.map_eq_some_iff.mp h
  obtain ⟨f, hwf, hsub, rfl⟩ := skipInos_eq_some hI.free_wf (by omega)
    (fun x hx => add_lt_of_mem_inoRange hrank (hI.free_within hx) hi) hr
  refine ⟨?_, Finset.empty_subset _⟩
  rw [hp]
  exact inv_settled hwf rfl (hsub.trans hI.free_within) ((hI.free_disjoint hp).mono_left hsub)

/-- `repair`. -/
theorem Inv.step_repair (hI : Inv rank j) {id : U64}
    (h : j.step (.repair id) = some j') :
    Inv rank j' ∧ j'.returned ⊆ j.table.projectedFree.den := by
  obtain ⟨⟨t', b⟩, hr, rfl⟩ := Option.map_eq_some_iff.mp h
  refine ⟨?_, Finset.empty_subset _⟩
  unfold repair at hr
  by_cases hv : j.table.projectedVersion ≠ j.table.version
  · rw [if_pos hv, Option.some.injEq, Prod.mk.injEq] at hr
    obtain ⟨rfl, -⟩ := hr
    exact hI.with_returned ∅
  · rw [if_neg hv] at hr
    have hp : j.pending = [] := by
      have := hI.versions
      rw [← List.length_eq_zero_iff]
      omega
    split_ifs at hr with hm
    obtain ⟨t'', hr', heq⟩ := Option.map_eq_some_iff.mp hr
    rw [Prod.mk.injEq] at heq
    obtain ⟨rfl, -⟩ := heq
    have hmem : id.val ∈ j.table.free.den := by
      rw [isMarkedFree, hI.projected_eq_free hp, Bool.or_self] at hm
      exact (contains_isSome hI.free_wf id).mp hm
    rw [hp]
    exact hI.replay_one hp hmem hr' _

/-- One call keeps the invariant and hands out only projected free numbers. -/
theorem Inv.step (hrank : rank + 2 < 2 ^ 24) (hI : Inv rank j) {e : Event}
    (hA : Allowed rank j e) (h : j.step e = some j') :
    Inv rank j' ∧ j'.returned ⊆ j.table.projectedFree.den := by
  cases e with
  | projectAllocId id => exact hI.step_projectAllocId h
  | projectAllocIds want => exact hI.step_projectAllocIds hA h
  | projectReleaseIds ids => exact hI.step_projectReleaseIds hA h
  | applyNext => exact hI.step_applyNext h
  | replayAllocId id => exact hI.step_replayAllocId hA h
  | replayAllocIds ids => exact hI.step_replayAllocIds hA h
  | replayReleaseIds ids => exact hI.step_replayReleaseIds hA h
  | replayReset => exact Inv.step_replayReset hrank hI hA h
  | skipInos i => exact Inv.step_skipInos hrank hI hA h
  | repair id => exact hI.step_repair h

theorem inv_start (hrank : rank + 2 < 2 ^ 24) (h : Start rank j) : Inv rank j := by
  cases h with
  | reset t ht =>
    obtain ⟨f, hr, hwf, hden⟩ := resetState_spec (t := initial rank) hrank
    rw [hr, Option.some.injEq] at ht
    subst ht
    exact ⟨hwf, hwf, trivial, rfl, hden.subset, hden.subset,
      fun _ ho => absurd ho List.not_mem_nil, Finset.disjoint_empty_right _, rfl⟩
  | decode free version hwf hR =>
    exact ⟨hwf, hwf, trivial, rfl, hR, hR, fun _ ho => absurd ho List.not_mem_nil,
      Finset.disjoint_empty_right _, rfl⟩

/-- With at least `want` projected free numbers, `project_alloc_ids` hands out exactly `want`
numbers: the least of them. -/
theorem Inv.projectAllocIds_some (hI : Inv rank j) {want : ℕ} (hlt : want < 2 ^ 31)
    (hwant : want ≤ j.table.projectedFree.den.card) :
    ∃ j', j.step (.projectAllocIds want) = some j' ∧
      j'.returned = firstN j.table.projectedFree.den want ∧ j'.returned.card = want := by
  obtain ⟨pf, ids', hr, hres⟩ := projectAllocIds_spec hI.projected_wf wf_empty
    (by rw [den_empty]; exact Finset.disjoint_empty_left _)
    (by rw [den_empty, Finset.empty_union]; exact hI.projected_wf.card_lt) hwant (by omega)
  refine ⟨_, by rw [Journaled.step, hr, Option.map_some], ?_, ?_⟩
  · show ids'.den = _
    rw [hres.ids_den, den_empty, Finset.empty_union]
  · show ids'.den.card = want
    rw [hres.card, den_empty, Finset.card_empty, Nat.zero_add]

end Inv

/-- Journaled runs of the ino table: applying the pending updates to `free` in journal order
succeeds and gives `projected_free`; a call hands out only projected free numbers, none of them
handed out before and not released since, all in the rank's range; `project_alloc_ids` hands
out exactly `want` numbers when there are that many; and both sets stay in the range. -/
theorem inotable_journal_sound (rank : ℕ) (hrank : rank + 2 < 2 ^ 24) (j₀ j : Journaled)
    (es : List Event) (hstart : Start rank j₀) (hg : Guarded (Allowed rank) step j₀ es)
    (hrun : run step j₀ es = some j) :
    (∃ f, run Op.exec j.table.free j.pending = some f ∧ f.den = j.table.projectedFree.den) ∧
    (∀ e j', Allowed rank j e → j.step e = some j' →
      j'.returned ⊆ j.table.projectedFree.den ∧ Disjoint j'.returned j.handedOut ∧
        j'.returned ⊆ inoRange rank) ∧
    (∀ want, want < 2 ^ 31 → want ≤ j.table.projectedFree.den.card →
      ∃ j', j.step (.projectAllocIds want) = some j' ∧ j'.returned.card = want) ∧
    j.table.free.den ⊆ inoRange rank ∧ j.table.projectedFree.den ⊆ inoRange rank := by
  have hI : Inv rank j := run_invariant_guarded step (Allowed rank) (Inv rank)
    (fun _ _ _ hs hA h => (hs.step hrank hA h).1) es j₀ j (inv_start hrank hstart) hg hrun
  refine ⟨?_, fun e j' hA h => ?_, fun want hlt hwant => ?_, hI.free_within, hI.projected_within⟩
  · obtain ⟨f, hf, -, hden⟩ := run_spec j.pending j.table.free hI.free_wf hI.valid
    exact ⟨f, hf, by rw [hden, hI.projected_den]⟩
  · have hsub := (hI.step hrank hA h).2
    exact ⟨hsub, hI.handed_out.mono_left hsub, hsub.trans hI.projected_within⟩
  · obtain ⟨j', hj', -, hcard⟩ := hI.projectAllocIds_some hlt hwant
    exact ⟨j', hj', hcard⟩

/-- Rank 0 after `reset_state()`. -/
def resetZero : InoTable := ⟨0, ⟨2 ^ 40, [(2 ^ 40, 2 ^ 40)]⟩, ⟨2 ^ 40, [(2 ^ 40, 2 ^ 40)]⟩, 0, 0⟩

example : (initial 0).resetState = some resetZero := by decide +kernel

/-- `resetZero` once its first number is allocated and journaled. -/
def firstAllocated : Journaled :=
  ⟨⟨0, ⟨2 ^ 40 - 1, [(2 ^ 40 + 1, 2 ^ 40 - 1)]⟩, ⟨2 ^ 40 - 1, [(2 ^ 40 + 1, 2 ^ 40 - 1)]⟩, 1, 1⟩,
    [], {2 ^ 40}, ∅⟩

theorem inotable_journal_sound_firstAllocated :
    0 + 2 < 2 ^ 24 ∧ Start 0 ⟨resetZero, [], ∅, ∅⟩ ∧
      Guarded (Allowed 0) step ⟨resetZero, [], ∅, ∅⟩ [.projectAllocId 0, .applyNext] ∧
      run step ⟨resetZero, [], ∅, ∅⟩ [.projectAllocId 0, .applyNext] = some firstAllocated ∧
      ((∃ f, run Op.exec firstAllocated.table.free firstAllocated.pending = some f ∧
          f.den = firstAllocated.table.projectedFree.den) ∧
        (∀ e j', Allowed 0 firstAllocated e → firstAllocated.step e = some j' →
          j'.returned ⊆ firstAllocated.table.projectedFree.den ∧
            Disjoint j'.returned firstAllocated.handedOut ∧ j'.returned ⊆ inoRange 0) ∧
        (∀ want, want < 2 ^ 31 → want ≤ firstAllocated.table.projectedFree.den.card →
          ∃ j', firstAllocated.step (.projectAllocIds want) = some j' ∧ j'.returned.card = want) ∧
        firstAllocated.table.free.den ⊆ inoRange 0 ∧
        firstAllocated.table.projectedFree.den ⊆ inoRange 0) := by
  have hstart : Start 0 ⟨resetZero, [], ∅, ∅⟩ := Start.reset resetZero (by decide +kernel)
  have hg : Guarded (Allowed 0) step ⟨resetZero, [], ∅, ∅⟩ [.projectAllocId 0, .applyNext] :=
    ⟨trivial, fun _ _ => ⟨trivial, fun _ _ => trivial⟩⟩
  have hrun : run step ⟨resetZero, [], ∅, ∅⟩ [.projectAllocId 0, .applyNext] =
      some firstAllocated := rfl
  exact ⟨by decide, hstart, hg, hrun,
    inotable_journal_sound 0 (by decide) _ _ _ hstart hg hrun⟩

/-- A journal read as two sets: the numbers its projections allocate and those they
release. -/
def pendingAllocated : List Op → Finset ℕ
  | [] => ∅
  | .erase start len :: os => range start len ∪ pendingAllocated os
  | .subtract ids :: os => ids.den ∪ pendingAllocated os
  | _ :: os => pendingAllocated os

def pendingReleased : List Op → Finset ℕ
  | [] => ∅
  | .insertSet ids :: os => ids.den ∪ pendingReleased os
  | _ :: os => pendingReleased os

/-- Allocate the first number, journal it, release it and allocate it again. -/
def reallocAfterRelease : List Event :=
  [.projectAllocId 0, .applyNext, .projectReleaseIds ⟨1, [(2 ^ 40, 1)]⟩, .projectAllocId 0]

/-- Release number `5`, from outside the range, journal it and allocate. -/
def allocReleasedOutside : List Event :=
  [.projectReleaseIds ⟨1, [(5, 1)]⟩, .applyNext, .projectAllocId 0]

/-- From `reset_state()` of rank 0: after a number is allocated, released and allocated
again, `projected_free` is not `free` minus the pending allocations plus the pending
releases; and a number released from outside the range is handed out again. -/
theorem realloc_breaks_setwise_projection :
    (∃ j, run step ⟨resetZero, [], ∅, ∅⟩ reallocAfterRelease = some j ∧
      j.table.projectedFree.den ≠
        (j.table.free.den \ pendingAllocated j.pending) ∪ pendingReleased j.pending) ∧
    (∃ j, run step ⟨resetZero, [], ∅, ∅⟩ allocReleasedOutside = some j ∧
      5 ∈ j.returned ∧ 5 ∉ inoRange 0) := by
  constructor
  · obtain ⟨j, hj⟩ : ∃ j, run step ⟨resetZero, [], ∅, ∅⟩ reallocAfterRelease = some j :=
      Option.isSome_iff_exists.mp (by decide +kernel)
    have hpf : (run step ⟨resetZero, [], ∅, ∅⟩ reallocAfterRelease).map
        (·.table.projectedFree) = some ⟨2 ^ 40 - 1, [(2 ^ 40 + 1, 2 ^ 40 - 1)]⟩ := by
      decide +kernel
    have hrel : (run step ⟨resetZero, [], ∅, ∅⟩ reallocAfterRelease).map
        (fun j => pendingReleased j.pending) = some {2 ^ 40} := by
      decide +kernel
    rw [hj, Option.map_some, Option.some.injEq] at hpf hrel
    refine ⟨j, hj, fun heq => ?_⟩
    have hin : 2 ^ 40 ∈ j.table.projectedFree.den := by
      rw [heq, hrel]
      exact Finset.mem_union_right _ (Finset.mem_singleton_self _)
    rw [hpf, IntervalSet.den, mem_den_nat] at hin
    revert hin
    decide
  · obtain ⟨j, hj⟩ : ∃ j, run step ⟨resetZero, [], ∅, ∅⟩ allocReleasedOutside = some j :=
      Option.isSome_iff_exists.mp (by decide +kernel)
    have hret : (run step ⟨resetZero, [], ∅, ∅⟩ allocReleasedOutside).map (·.returned) =
        some {5} := by
      decide +kernel
    rw [hj, Option.map_some, Option.some.injEq] at hret
    refine ⟨j, hj, by rw [hret]; exact Finset.mem_singleton_self _, ?_⟩
    rw [inoRange, Finset.mem_Ico]
    omega

end Journaled

end Lunule.InoTable
