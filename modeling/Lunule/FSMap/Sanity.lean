import Lunule.FSMap.Basic

/-!
`FSMap::sanity()` along runs of the operations. The invariant has two layers: `MapInv`
says what one `MDSMap` keeps on its own (its rank sets against its daemons), and
`Placement` what `mds_roles` keeps across the maps (each daemon is a standby or sits in
the filesystem its role names). Each operation is taken apart once by an inversion lemma,
and keeps both layers when the callers respect, beyond `Call.Allowed`, two guards: a
promoted or followed rank is a real rank, and `damaged` is not called on a daemon
that is still `CREATING`. Under them `sanity()` holds after every run from an empty map;
without the second, a run fails it.
-/

namespace Lunule.FSMap

open OrdMap Runs

/-! ### What each operation does -/

/-- The rank sets and daemon info that `promote` writes into the filesystem's map. -/
def promoteMap (mm : MDSMap) (gid : Gid) (info : MdsInfo) (rank : Rank) : MDSMap :=
  let (state, mm) :=
    if rank ∈ mm.stopped then (DaemonState.starting, { mm with stopped := mm.stopped.erase rank })
    else if rank ∉ mm.inRanks then (DaemonState.creating, mm)
    else (DaemonState.replay, { mm with failed := mm.failed.erase rank })
  { mm with
    mdsInfo := OrdMap.set mm.mdsInfo gid { info with state := state, rank := rank }
    inRanks := mm.inRanks.insert rank
    up := OrdMap.set mm.up rank gid }

/-- The rank set `erase` changes for a daemon that holds its rank. -/
def eraseRanks (mm : MDSMap) (info : MdsInfo) : MDSMap :=
  if info.state = .creating then { mm with inRanks := mm.inRanks.erase info.rank }
  else { mm with failed := mm.failed.insert info.rank }

@[simp] theorem eraseRanks_up (mm : MDSMap) (info : MdsInfo) : (eraseRanks mm info).up = mm.up := by
  unfold eraseRanks
  split_ifs <;> rfl

@[simp] theorem eraseRanks_compat (mm : MDSMap) (info : MdsInfo) :
    (eraseRanks mm info).compat = mm.compat := by
  unfold eraseRanks
  split_ifs <;> rfl

@[simp] theorem eraseRanks_mdsInfo (mm : MDSMap) (info : MdsInfo) :
    (eraseRanks mm info).mdsInfo = mm.mdsInfo := by
  unfold eraseRanks
  split_ifs <;> rfl

theorem createFilesystem_some {m m' : FSMap} {jewel : Bool} (h : createFilesystem jewel m = some m') :
    ∃ fscid, fscid = (if jewel then m.nextFilesystemId else fsClusterIdAnonymous) ∧
      (jewel → fscid ≠ fsClusterIdAnonymous) ∧ (jewel = false → m.filesystems = []) ∧
      m' = { m with
        nextFilesystemId := if jewel then m.nextFilesystemId + 1 else m.nextFilesystemId
        filesystems := OrdMap.set m.filesystems fscid ⟨fscid, ⟨m.compat, [], [], [], [], [], []⟩⟩
        legacyClientFscid :=
          if (OrdMap.set m.filesystems fscid ⟨fscid, ⟨m.compat, [], [], [], [], [], []⟩⟩).length = 1
          then fscid else m.legacyClientFscid } := by
  cases jewel with
  | false =>
    by_cases hne : m.filesystems = []
    · simp only [createFilesystem, hne, Bool.false_eq_true, false_and, if_false, Bool.not_false,
        ne_eq, not_true_eq_false, and_false, Option.some.injEq] at h
      subst h
      refine ⟨_, rfl, fun hj => absurd hj Bool.false_ne_true, fun _ => hne, ?_⟩
      simp only [hne, Bool.false_eq_true, if_false]
    · simp [createFilesystem, hne] at h
  | true =>
    by_cases hz : m.nextFilesystemId = fsClusterIdAnonymous
    · simp [createFilesystem, hz] at h
    · simp only [createFilesystem, hz, if_true, true_and, if_false, Bool.not_true,
        Bool.false_eq_true, false_and, Option.some.injEq] at h
      exact ⟨_, rfl, fun _ => hz, fun hj => absurd hj (by decide), h.symm⟩

theorem resetFilesystem_some {m m' : FSMap} {fscid : Fscid} (h : resetFilesystem fscid m = some m') :
    ∃ fs, find? m.filesystems fscid = some fs ∧
      m' = setMdsMap m fs.fscid fs ⟨m.compat, [0], [0], [], ((fs.mdsMap.inRanks ++
        fs.mdsMap.stopped).dedup).erase 0, [], []⟩ := by
  unfold resetFilesystem at h
  cases hfs : find? m.filesystems fscid with
  | none => simp [hfs] at h
  | some fs =>
    simp only [hfs, Option.bind_eq_bind, Option.bind_some, Option.some.injEq] at h
    exact ⟨fs, rfl, h.symm⟩

theorem insert_some {m m' : FSMap} {info : MdsInfo} (h : FSMap.insert info m = some m') :
    info.state = .standby ∧ info.rank = mdsRankNone ∧
      m' = { m with
        mdsRoles := OrdMap.set m.mdsRoles info.globalId fsClusterIdNone
        standbyDaemons := OrdMap.set m.standbyDaemons info.globalId info
        standbyEpochs := m.standbyEpochs.insert info.globalId } := by
  unfold FSMap.insert at h
  split_ifs at h with hbad
  cases h
  simp only [ne_eq, not_or, not_not] at hbad
  exact ⟨hbad.1, hbad.2, rfl⟩

/-- `promote` of a standby, or of a standby-replay daemon that follows the rank. -/
theorem promote_some {m m' : FSMap} {gid : Gid} {fscid : Fscid} {rank : Rank}
    (h : promote gid fscid rank m = some m') :
    ∃ fs info, find? m.filesystems fscid = some fs ∧
      ((find? m.mdsRoles gid = some fsClusterIdNone ∧ find? m.standbyDaemons gid = some info ∧
          info.state = .standby ∧
          m' = { setMdsMap m fscid fs (promoteMap fs.mdsMap gid info rank) with
            mdsRoles := OrdMap.set m.mdsRoles gid fscid
            standbyDaemons := OrdMap.erase m.standbyDaemons gid
            standbyEpochs := m.standbyEpochs.erase gid }) ∨
        (∃ role, find? m.mdsRoles gid = some role ∧ role ≠ fsClusterIdNone ∧
          find? fs.mdsMap.mdsInfo gid = some info ∧ info.state = .standbyReplay ∧ info.rank = rank ∧
          m' = { setMdsMap m fscid fs (promoteMap fs.mdsMap gid info rank) with
            mdsRoles := OrdMap.set m.mdsRoles gid fscid })) := by
  unfold promote at h
  cases hrole : find? m.mdsRoles gid with
  | none => simp [hrole] at h
  | some role =>
    cases hfs : find? m.filesystems fscid with
    | none => simp [hrole, hfs] at h
    | some fs =>
      by_cases hsr : role = fsClusterIdNone
      · subst hsr
        cases hsb : find? m.standbyDaemons gid with
        | none => simp [hrole, hfs, hsb] at h
        | some info =>
          by_cases hst : info.state = .standby
          · simp only [hrole, hfs, bind, Option.bind, hsb, hst, ne_eq, not_true_eq_false,
              if_false] at h
            exact ⟨fs, info, rfl, Or.inl ⟨rfl, rfl, hst, (Option.some.inj h).symm⟩⟩
          · simp [hrole, hfs, hsb, hst] at h
      · cases hinfo : find? fs.mdsMap.mdsInfo gid with
        | none => simp [hrole, hfs, hsr, hinfo] at h
        | some info =>
          by_cases hst : info.state = .standbyReplay ∧ info.rank = rank
          · simp only [hrole, hfs, bind, Option.bind, hsr, hinfo, hst, ne_eq, not_false_eq_true,
              if_true, and_self] at h
            exact ⟨fs, info, rfl, Or.inr ⟨role, rfl, hsr, hinfo, hst.1, hst.2,
              (Option.some.inj h).symm⟩⟩
          · simp [hrole, hfs, hsr, hinfo, hst] at h

theorem assignStandbyReplay_some {m m' : FSMap} {gid : Gid} {leaderNs : Fscid} {leaderRank : Rank}
    (h : assignStandbyReplay gid leaderNs leaderRank m = some m') :
    ∃ fs info, find? m.mdsRoles gid = some fsClusterIdNone ∧
      find? m.standbyDaemons gid = some info ∧ find? m.filesystems leaderNs = some fs ∧
      m' = { setMdsMap m leaderNs fs { fs.mdsMap with
          mdsInfo := OrdMap.set fs.mdsMap.mdsInfo gid
            { info with rank := leaderRank, state := .standbyReplay } } with
        mdsRoles := OrdMap.set m.mdsRoles gid leaderNs
        standbyDaemons := OrdMap.erase m.standbyDaemons gid
        standbyEpochs := m.standbyEpochs.erase gid } := by
  unfold assignStandbyReplay at h
  cases hrole : find? m.mdsRoles gid with
  | none => simp [hrole] at h
  | some role =>
    by_cases hsr : role = fsClusterIdNone
    · subst hsr
      cases hsb : find? m.standbyDaemons gid with
      | none => simp [hrole, hsb] at h
      | some info =>
        cases hfs : find? m.filesystems leaderNs with
        | none => simp [hrole, hsb, hfs] at h
        | some fs =>
          simp only [hrole, hsb, hfs, bind, Option.bind, ne_eq, not_true_eq_false,
            if_false] at h
          exact ⟨fs, info, rfl, rfl, rfl, (Option.some.inj h).symm⟩
    · simp [hrole, hsr, bind, Option.bind] at h

/-- `erase` of a standby, of a standby-replay daemon, or of a daemon holding a rank. -/
theorem erase_some {m m' : FSMap} {who : Gid} (h : FSMap.erase who m = some m') :
    (find? m.mdsRoles who = some fsClusterIdNone ∧
      m' = { m with
        standbyDaemons := OrdMap.erase m.standbyDaemons who
        standbyEpochs := m.standbyEpochs.erase who
        mdsRoles := OrdMap.erase m.mdsRoles who }) ∨
    ∃ role fs info, find? m.mdsRoles who = some role ∧ role ≠ fsClusterIdNone ∧
      find? m.filesystems role = some fs ∧ find? fs.mdsMap.mdsInfo who = some info ∧
      ((info.state = .standbyReplay ∧
          m' = { setMdsMap m role fs
              { fs.mdsMap with mdsInfo := OrdMap.erase fs.mdsMap.mdsInfo who } with
            mdsRoles := OrdMap.erase m.mdsRoles who }) ∨
        (info.state ≠ .standbyReplay ∧ find? fs.mdsMap.up info.rank = some info.globalId ∧
          m' = { setMdsMap m role fs { eraseRanks fs.mdsMap info with
              up := OrdMap.erase fs.mdsMap.up info.rank
              mdsInfo := OrdMap.erase fs.mdsMap.mdsInfo who } with
            mdsRoles := OrdMap.erase m.mdsRoles who })) := by
  unfold FSMap.erase at h
  cases hrole : find? m.mdsRoles who with
  | none => simp [hrole] at h
  | some role =>
    by_cases hsr : role = fsClusterIdNone
    · subst hsr
      simp only [hrole, bind, Option.bind, if_true, Option.some.injEq] at h
      exact Or.inl ⟨rfl, h.symm⟩
    · cases hfs : find? m.filesystems role with
      | none => simp [hrole, hsr, hfs, bind, Option.bind] at h
      | some fs =>
        cases hinfo : find? fs.mdsMap.mdsInfo who with
        | none => simp [hrole, hsr, hfs, hinfo, bind, Option.bind] at h
        | some info =>
          refine Or.inr ⟨role, fs, info, rfl, hsr, hfs, hinfo, ?_⟩
          by_cases hst : info.state = .standbyReplay
          · simp only [hrole, hsr, hfs, hinfo, hst, bind, Option.bind, if_false, ne_eq,
              not_true_eq_false, Option.some.injEq] at h
            exact Or.inl ⟨hst, h.symm⟩
          · have hrk : (if info.state = .creating then
                { fs.mdsMap with inRanks := fs.mdsMap.inRanks.erase info.rank }
                else { fs.mdsMap with failed := fs.mdsMap.failed.insert info.rank }) =
                eraseRanks fs.mdsMap info := rfl
            simp only [hrole, hsr, hfs, hinfo, hst, hrk, eraseRanks_up, eraseRanks_mdsInfo, bind,
              Option.bind, ne_eq, not_false_eq_true, if_true, if_false] at h
            by_cases hup : find? fs.mdsMap.up info.rank = some info.globalId
            · simp only [hup, if_true, Option.some.injEq] at h
              exact Or.inr ⟨hst, hup, h.symm⟩
            · simp [hup] at h

/-- `damaged` is `erase` followed by moving the rank from failed to damaged. -/
theorem damaged_some {m m' : FSMap} {who : Gid} (h : FSMap.damaged who m = some m') :
    ∃ role fs info m₁ fs₁, find? m.mdsRoles who = some role ∧ role ≠ fsClusterIdNone ∧
      find? m.filesystems role = some fs ∧ find? fs.mdsMap.mdsInfo who = some info ∧
      FSMap.erase who m = some m₁ ∧ find? m₁.filesystems role = some fs₁ ∧
      m' = setMdsMap m₁ role fs₁ { fs₁.mdsMap with
        failed := fs₁.mdsMap.failed.erase info.rank
        damaged := fs₁.mdsMap.damaged.insert info.rank } := by
  unfold FSMap.damaged at h
  cases hrole : find? m.mdsRoles who with
  | none => simp [hrole] at h
  | some role =>
    by_cases hsr : role = fsClusterIdNone
    · simp [hrole, hsr, bind, Option.bind] at h
    · cases hfs : find? m.filesystems role with
      | none => simp [hrole, hsr, hfs, bind, Option.bind] at h
      | some fs =>
        cases hinfo : find? fs.mdsMap.mdsInfo who with
        | none => simp [hrole, hsr, hfs, hinfo, bind, Option.bind] at h
        | some info =>
          cases herase : FSMap.erase who m with
          | none => simp [hrole, hsr, hfs, hinfo, herase, bind, Option.bind] at h
          | some m₁ =>
            cases hfs₁ : find? m₁.filesystems role with
            | none => simp [hrole, hsr, hfs, hinfo, herase, hfs₁, bind, Option.bind] at h
            | some fs₁ =>
              simp only [hrole, hsr, hfs, hinfo, herase, hfs₁, bind, Option.bind, if_false,
                Option.some.injEq] at h
              exact ⟨role, fs, info, m₁, fs₁, rfl, hsr, hfs, hinfo, rfl, hfs₁, h.symm⟩

theorem undamaged_some {m m' : FSMap} {fscid : Fscid} {rank : Rank}
    (h : (undamaged fscid rank m).map Prod.fst = some m') :
    ∃ fs, find? m.filesystems fscid = some fs ∧
      ((rank ∈ fs.mdsMap.damaged ∧ m' = setMdsMap m fscid fs { fs.mdsMap with
          damaged := fs.mdsMap.damaged.erase rank
          failed := fs.mdsMap.failed.insert rank }) ∨
        (rank ∉ fs.mdsMap.damaged ∧ m' = m)) := by
  unfold undamaged at h
  cases hfs : find? m.filesystems fscid with
  | none => simp [hfs, bind, Option.bind] at h
  | some fs =>
    refine ⟨fs, rfl, ?_⟩
    by_cases hd : rank ∈ fs.mdsMap.damaged
    · simp only [hfs, hd, bind, Option.bind, if_true, Option.map_some, Option.some.injEq] at h
      exact Or.inl ⟨hd, h.symm⟩
    · simp only [hfs, hd, bind, Option.bind, if_false, Option.map_some, Option.some.injEq] at h
      exact Or.inr ⟨hd, h.symm⟩

/-- `stop` of a daemon that no standby-replay daemon follows (the model leaves the other case
undefined, as the source's loop is). -/
theorem stop_some {m m' : FSMap} {who : Gid} (h : (FSMap.stop who m).map Prod.fst = some m') :
    ∃ role fs info, find? m.mdsRoles who = some role ∧ role ≠ fsClusterIdNone ∧
      find? m.filesystems role = some fs ∧ find? fs.mdsMap.mdsInfo who = some info ∧
      (∀ j ∈ fs.mdsMap.mdsInfo, ¬(j.2.rank = info.rank ∧ j.2.state = .standbyReplay)) ∧
      m' = { setMdsMap m role fs { fs.mdsMap with
          up := OrdMap.erase fs.mdsMap.up info.rank
          inRanks := fs.mdsMap.inRanks.erase info.rank
          stopped := fs.mdsMap.stopped.insert info.rank
          mdsInfo := OrdMap.erase fs.mdsMap.mdsInfo who } with
        mdsRoles := OrdMap.erase m.mdsRoles who } := by
  unfold FSMap.stop at h
  cases hrole : find? m.mdsRoles who with
  | none => simp [hrole] at h
  | some role =>
    by_cases hsr : role = fsClusterIdNone
    · simp [hrole, hsr, bind, Option.bind] at h
    · cases hfs : find? m.filesystems role with
      | none => simp [hrole, hsr, hfs, bind, Option.bind] at h
      | some fs =>
        cases hinfo : find? fs.mdsMap.mdsInfo who with
        | none => simp [hrole, hsr, hfs, hinfo, bind, Option.bind] at h
        | some info =>
          by_cases hf : (fs.mdsMap.mdsInfo.any fun j => j.2.rank = info.rank ∧
              j.2.state = .standbyReplay) = true
          · simp only [hrole, hsr, hfs, hinfo, hf, bind, Option.bind, if_true, if_false,
              Option.map_none] at h
            cases h
          · simp only [hrole, hsr, hfs, hinfo, hf, bind, Option.bind, if_false, Bool.false_eq_true,
              Option.map_some, Option.some.injEq] at h
            refine ⟨role, fs, info, rfl, hsr, hfs, hinfo, fun j hj hjf => hf ?_, h.symm⟩
            exact List.any_eq_true.mpr ⟨j, hj, by simpa using hjf⟩

/-! ### The invariant -/

/-- What one `MDSMap` keeps on its own. The maps are sorted and the rank sets free of
duplicates; failed and damaged ranks are in and never both, stopped ranks are not in; each
daemon has a rank, and one that is not standby-replay holds it in `up`, neither failed nor
damaged; and `up` maps each of its ranks, all in, to such a daemon. -/
structure MapInv (mm : MDSMap) : Prop where
  up_sorted : Sorted mm.up
  info_sorted : Sorted mm.mdsInfo
  in_nodup : mm.inRanks.Nodup
  failed_nodup : mm.failed.Nodup
  damaged_nodup : mm.damaged.Nodup
  stopped_nodup : mm.stopped.Nodup
  failed_in : ∀ r ∈ mm.failed, r ∈ mm.inRanks
  damaged_in : ∀ r ∈ mm.damaged, r ∈ mm.inRanks
  failed_not_damaged : ∀ r ∈ mm.failed, r ∉ mm.damaged
  stopped_not_in : ∀ r ∈ mm.stopped, r ∉ mm.inRanks
  rank_ne_none : ∀ g info, find? mm.mdsInfo g = some info → info.rank ≠ mdsRankNone
  holds : ∀ g info, find? mm.mdsInfo g = some info → info.state ≠ .standbyReplay →
    find? mm.up info.rank = some g ∧ info.rank ∉ mm.failed ∧ info.rank ∉ mm.damaged
  up_in : ∀ r g, find? mm.up r = some g → r ∈ mm.inRanks
  up_held : ∀ r g, find? mm.up r = some g →
    ∃ info, find? mm.mdsInfo g = some info ∧ info.rank = r ∧ info.state ≠ .standbyReplay

/-- Where `mds_roles` puts the daemons: each daemon of a filesystem has that filesystem as its
role and is no standby; each standby is one, with its role `NONE`; and each role names where
the daemon is. With the ids and compat of the filesystems and the legacy filesystem. -/
structure Placement (m : FSMap) : Prop where
  legacy : m.legacyClientFscid ≠ fsClusterIdNone → m.legacyClientFscid ∈ keys m.filesystems
  fs_ids : ∀ f fs, find? m.filesystems f = some fs → fs.mdsMap.compat = m.compat ∧ fs.fscid = f
  in_fs : ∀ f fs g, find? m.filesystems f = some fs → g ∈ keys fs.mdsMap.mdsInfo →
    find? m.mdsRoles g = some f ∧ g ∉ keys m.standbyDaemons ∧ g ∉ m.standbyEpochs
  standby : ∀ g info, find? m.standbyDaemons g = some info →
    info.state = .standby ∧ info.rank = mdsRankNone ∧ info.globalId = g ∧ g ∈ m.standbyEpochs ∧
      find? m.mdsRoles g = some fsClusterIdNone
  epochs : ∀ g ∈ m.standbyEpochs, g ∈ keys m.standbyDaemons
  roles : ∀ g f, find? m.mdsRoles g = some f →
    if f = fsClusterIdNone then g ∈ keys m.standbyDaemons
    else ∃ fs, find? m.filesystems f = some fs ∧ g ∈ keys fs.mdsMap.mdsInfo

/-- The invariant of reachable maps: the placement, every filesystem's `MapInv`, sorted maps,
and filesystem ids in `[0, next_filesystem_id)`. -/
structure Inv (m : FSMap) : Prop where
  placed : Placement m
  fs_sorted : Sorted m.filesystems
  roles_sorted : Sorted m.mdsRoles
  standby_sorted : Sorted m.standbyDaemons
  epochs_nodup : m.standbyEpochs.Nodup
  next_pos : 0 < m.nextFilesystemId
  ids_below : ∀ f ∈ keys m.filesystems, 0 ≤ f ∧ f < m.nextFilesystemId
  maps : ∀ f fs, find? m.filesystems f = some fs → MapInv fs.mdsMap

theorem inv_empty (compat : ℕ) : Inv (empty compat) where
  placed :=
    { legacy := fun h => absurd rfl h
      fs_ids := fun _ _ h => by cases h
      in_fs := fun _ _ _ h => by cases h
      standby := fun _ _ h => by cases h
      epochs := fun _ h => by cases h
      roles := fun _ _ h => by cases h }
  fs_sorted := List.Pairwise.nil
  roles_sorted := List.Pairwise.nil
  standby_sorted := List.Pairwise.nil
  epochs_nodup := List.nodup_nil
  next_pos := Int.one_pos
  ids_below := fun _ h => by cases h
  maps := fun _ _ h => by cases h

/-- An entry of a sorted map is what lookup finds at its key. -/
theorem find?_of_mem_sorted {κ ν : Type} [LinearOrder κ] {m : List (κ × ν)} (hm : Sorted m)
    {p : κ × ν} (hp : p ∈ m) : find? m p.1 = some p.2 :=
  find?_of_mem hm.nodup hp

/-- The per-filesystem assertions of `sanity()` from the two layers. -/
theorem filesystemSane_of_inv {m : FSMap} (hm : Inv m) {f : Fscid} {fs : Filesystem}
    (hfs : find? m.filesystems f = some fs) : FilesystemSane m f fs := by
  have hmap := hm.maps f fs hfs
  obtain ⟨hcompat, hid⟩ := hm.placed.fs_ids f fs hfs
  refine ⟨hcompat, hid, fun j hj => ?_, fun j hj => ?_⟩
  · have hfind := find?_of_mem_sorted hmap.info_sorted hj
    obtain ⟨hrole, hsb, hep⟩ := hm.placed.in_fs f fs j.1 hfs (mem_keys_of_find? hfind)
    exact ⟨hmap.rank_ne_none _ _ hfind, hrole, (find?_eq_none_iff _ _).mpr hsb, hep,
      hmap.holds _ _ hfind⟩
  · have hfind := find?_of_mem_sorted hmap.up_sorted hj
    obtain ⟨info, hinfo, -, -⟩ := hmap.up_held _ _ hfind
    exact ⟨hmap.up_in _ _ hfind, by simp [hinfo]⟩

/-- The invariant gives every assertion of `sanity()`. -/
theorem Inv.sanity {m : FSMap} (hm : Inv m) : Sanity m := by
  refine ⟨fun h => find?_isSome_of_mem (hm.placed.legacy h), fun i hi => ?_, fun i hi => ?_,
    fun g hg => find?_isSome_of_mem (hm.placed.epochs g hg), fun i hi => ?_⟩
  · exact filesystemSane_of_inv hm (find?_of_mem_sorted hm.fs_sorted hi)
  · exact hm.placed.standby _ _ (find?_of_mem_sorted hm.standby_sorted hi)
  · have hrole := hm.placed.roles _ _ (find?_of_mem_sorted hm.roles_sorted hi)
    split_ifs at hrole ⊢ with hnone
    · exact find?_isSome_of_mem hrole
    · obtain ⟨fs, hfs, hg⟩ := hrole
      exact ⟨fs, hfs, find?_isSome_of_mem hg⟩

/-! ### One `MDSMap` -/

section MapInv

variable {mm : MDSMap}

/-- A rank that is failed, stopped or not in is not up. -/
theorem MapInv.not_up (hm : MapInv mm) {rank : Rank}
    (h : rank ∈ mm.failed ∨ rank ∈ mm.stopped ∨ rank ∉ mm.inRanks) : find? mm.up rank = none := by
  cases hup : find? mm.up rank with
  | none => rfl
  | some g =>
    exfalso
    have hin := hm.up_in _ _ hup
    obtain ⟨info, hinfo, hrank, hst⟩ := hm.up_held _ _ hup
    have hfailed := (hm.holds g info hinfo hst).2.1
    rw [hrank] at hfailed
    rcases h with h | h | h
    · exact hfailed h
    · exact hm.stopped_not_in _ h hin
    · exact h hin

/-- Two daemons that hold ranks in `up` hold different ones. -/
theorem MapInv.rank_ne_of_up (hm : MapInv mm) {g g' : Gid} {info : MdsInfo} {r : Rank}
    (hinfo : find? mm.mdsInfo g = some info) (hst : info.state ≠ .standbyReplay)
    (hup : find? mm.up r = some g') (hne : g ≠ g') : info.rank ≠ r := by
  rintro rfl
  rw [(hm.holds g info hinfo hst).1] at hup
  exact hne (Option.some.inj hup)

/-- `up` names no standby-replay daemon. -/
theorem MapInv.not_standbyReplay_of_up (hm : MapInv mm) {r : Rank} {g : Gid} {info : MdsInfo}
    (hup : find? mm.up r = some g) (hinfo : find? mm.mdsInfo g = some info) :
    info.state ≠ .standbyReplay := by
  obtain ⟨i, hi, -, his⟩ := hm.up_held r g hup
  rw [hinfo] at hi
  cases hi
  exact his

/-- `up` keeps naming holders when a daemon it does not name gets new info. -/
theorem MapInv.up_held_set (hm : MapInv mm) {gid : Gid} (hfree : ∀ r, find? mm.up r ≠ some gid)
    (info' : MdsInfo) (r : Rank) (g : Gid) (hr : find? mm.up r = some g) :
    ∃ info, find? (OrdMap.set mm.mdsInfo gid info') g = some info ∧ info.rank = r ∧
      info.state ≠ .standbyReplay := by
  obtain ⟨i, hi, hir, his⟩ := hm.up_held r g hr
  have hne : g ≠ gid := fun h => hfree r (h ▸ hr)
  exact ⟨i, by rw [find?_set_of_ne _ _ hne]; exact hi, hir, his⟩

theorem MapInv.eraseStopped (hm : MapInv mm) (rank : Rank) :
    MapInv { mm with stopped := mm.stopped.erase rank } :=
  { hm with
    stopped_nodup := hm.stopped_nodup.erase rank
    stopped_not_in := fun r hr => hm.stopped_not_in r (List.mem_of_mem_erase hr) }

theorem MapInv.eraseFailed (hm : MapInv mm) (rank : Rank) :
    MapInv { mm with failed := mm.failed.erase rank } :=
  { hm with
    failed_nodup := hm.failed_nodup.erase rank
    failed_in := fun r hr => hm.failed_in r (List.mem_of_mem_erase hr)
    failed_not_damaged := fun r hr => hm.failed_not_damaged r (List.mem_of_mem_erase hr)
    holds := fun g info hg hst =>
      let h := hm.holds g info hg hst
      ⟨h.1, fun hf => h.2.1 (List.mem_of_mem_erase hf), h.2.2⟩ }

/-- A daemon that holds no rank takes `rank` in a state other than standby-replay; the rank
is not failed, damaged, stopped or up. -/
theorem MapInv.assignRank (hm : MapInv mm) {gid : Gid} {rank : Rank} (info : MdsInfo)
    {state : DaemonState} (hstate : state ≠ .standbyReplay) (hrank : rank ≠ mdsRankNone)
    (hfree : ∀ r, find? mm.up r ≠ some gid) (hfailed : rank ∉ mm.failed)
    (hdamaged : rank ∉ mm.damaged) (hstopped : rank ∉ mm.stopped) (hup : find? mm.up rank = none) :
    MapInv { mm with
      mdsInfo := OrdMap.set mm.mdsInfo gid { info with state := state, rank := rank }
      inRanks := mm.inRanks.insert rank
      up := OrdMap.set mm.up rank gid } where
  up_sorted := hm.up_sorted.set rank gid
  info_sorted := hm.info_sorted.set gid _
  in_nodup := hm.in_nodup.insert
  failed_nodup := hm.failed_nodup
  damaged_nodup := hm.damaged_nodup
  stopped_nodup := hm.stopped_nodup
  failed_in r hr := List.mem_insert_of_mem (hm.failed_in r hr)
  damaged_in r hr := List.mem_insert_of_mem (hm.damaged_in r hr)
  failed_not_damaged := hm.failed_not_damaged
  stopped_not_in r hr := by
    simp only [List.mem_insert_iff, not_or]
    exact ⟨fun h => hstopped (h ▸ hr), hm.stopped_not_in r hr⟩
  rank_ne_none g i hg := by
    rw [find?_set] at hg
    split_ifs at hg
    · cases hg
      exact hrank
    · exact hm.rank_ne_none g i hg
  holds g i hg hst := by
    rw [find?_set] at hg
    split_ifs at hg with hgid
    · cases hg
      exact ⟨by simp [find?_set, hgid], hfailed, hdamaged⟩
    · obtain ⟨hu, hf, hd⟩ := hm.holds g i hg hst
      exact ⟨by rw [find?_set_of_ne _ _ (ne_of_find?_eq_none hu hup)]; exact hu, hf, hd⟩
  up_in r g hr := by
    rw [find?_set] at hr
    split_ifs at hr with hrk
    · exact hrk ▸ List.mem_insert_self
    · exact List.mem_insert_of_mem (hm.up_in r g hr)
  up_held r g hr := by
    rw [find?_set] at hr
    split_ifs at hr with hrk
    · cases hr
      exact ⟨_, find?_set_self _ _ _, hrk.symm, hstate⟩
    · exact hm.up_held_set hfree _ r g hr

/-- `promote`'s map, under the callers' condition on the rank. -/
theorem MapInv.promoteMap (hm : MapInv mm) {gid : Gid} (info : MdsInfo) {rank : Rank}
    (hrank : rank ≠ mdsRankNone) (hfree : ∀ r, find? mm.up r ≠ some gid)
    (hallowed : rank ∈ mm.failed ∨ rank ∈ mm.stopped ∨ rank ∉ mm.inRanks) :
    MapInv (promoteMap mm gid info rank) := by
  have hup := hm.not_up hallowed
  unfold FSMap.promoteMap
  by_cases hs : rank ∈ mm.stopped
  · have hin : rank ∉ mm.inRanks := hm.stopped_not_in rank hs
    rw [if_pos hs]
    exact (hm.eraseStopped rank).assignRank info (by decide) hrank hfree
      (fun h => hin (hm.failed_in _ h)) (fun h => hin (hm.damaged_in _ h))
      (hm.stopped_nodup.not_mem_erase) hup
  · by_cases hin : rank ∈ mm.inRanks
    · have hf : rank ∈ mm.failed := by
        rcases hallowed with h | h | h
        · exact h
        · exact absurd h hs
        · exact absurd hin h
      rw [if_neg hs, if_neg (not_not.mpr hin)]
      exact (hm.eraseFailed rank).assignRank info (by decide) hrank hfree
        hm.failed_nodup.not_mem_erase (hm.failed_not_damaged rank hf) hs hup
    · rw [if_neg hs, if_pos hin]
      exact hm.assignRank info (by decide) hrank hfree (fun h => hin (hm.failed_in _ h))
        (fun h => hin (hm.damaged_in _ h)) hs hup

/-- `assign_standby_replay`'s map: a daemon that holds no rank follows `rank`. -/
theorem MapInv.follow (hm : MapInv mm) {gid : Gid} (info : MdsInfo) {rank : Rank}
    (hrank : rank ≠ mdsRankNone) (hfree : ∀ r, find? mm.up r ≠ some gid) :
    MapInv { mm with
      mdsInfo := OrdMap.set mm.mdsInfo gid { info with rank := rank, state := .standbyReplay } } :=
  { hm with
    info_sorted := hm.info_sorted.set gid _
    rank_ne_none := fun g i hg => by
      rw [find?_set] at hg
      split_ifs at hg
      · cases hg
        exact hrank
      · exact hm.rank_ne_none g i hg
    holds := fun g i hg hst => by
      rw [find?_set] at hg
      split_ifs at hg
      · cases hg
        exact absurd rfl hst
      · exact hm.holds g i hg hst
    up_held := hm.up_held_set hfree _ }

/-- A daemon that holds its rank leaves the map, and the rank leaves `up`. -/
theorem MapInv.dropHolder (hm : MapInv mm) {who : Gid} {info : MdsInfo}
    (hinfo : find? mm.mdsInfo who = some info) (hst : info.state ≠ .standbyReplay) :
    MapInv { mm with
      up := OrdMap.erase mm.up info.rank
      mdsInfo := OrdMap.erase mm.mdsInfo who } :=
  have hheld := (hm.holds who info hinfo hst).1
  { hm with
    up_sorted := hm.up_sorted.erase _
    info_sorted := hm.info_sorted.erase _
    rank_ne_none := fun g i hg => by
      rw [find?_erase hm.info_sorted.nodup] at hg
      split_ifs at hg
      exact hm.rank_ne_none g i hg
    holds := fun g i hg hsr => by
      rw [find?_erase hm.info_sorted.nodup] at hg
      split_ifs at hg with hgw
      obtain ⟨hu, hf, hd⟩ := hm.holds g i hg hsr
      have hne : i.rank ≠ info.rank := hm.rank_ne_of_up hg hsr hheld hgw
      exact ⟨by rw [find?_erase_of_ne _ hne]; exact hu, hf, hd⟩
    up_in := fun r g hr => by
      rw [find?_erase hm.up_sorted.nodup] at hr
      split_ifs at hr
      exact hm.up_in r g hr
    up_held := fun r g hr => by
      rw [find?_erase hm.up_sorted.nodup] at hr
      split_ifs at hr with hrk
      obtain ⟨i, hi, hir, his⟩ := hm.up_held r g hr
      have hne : g ≠ who := by
        rintro rfl
        rw [hinfo] at hi
        cases hi
        exact hrk hir.symm
      exact ⟨i, by rw [find?_erase_of_ne _ hne]; exact hi, hir, his⟩ }

/-- A rank that is not up, not failed and not damaged leaves `in`. -/
theorem MapInv.eraseIn (hm : MapInv mm) {rank : Rank} (hfailed : rank ∉ mm.failed)
    (hdamaged : rank ∉ mm.damaged) (hup : find? mm.up rank = none) :
    MapInv { mm with inRanks := mm.inRanks.erase rank } :=
  { hm with
    in_nodup := hm.in_nodup.erase rank
    failed_in := fun r hr =>
      List.mem_erase_of_ne (fun h : r = rank => hfailed (h ▸ hr)) |>.mpr (hm.failed_in r hr)
    damaged_in := fun r hr =>
      List.mem_erase_of_ne (fun h : r = rank => hdamaged (h ▸ hr)) |>.mpr (hm.damaged_in r hr)
    stopped_not_in := fun r hr hin => hm.stopped_not_in r hr (List.mem_of_mem_erase hin)
    up_in := fun r g hr =>
      List.mem_erase_of_ne (ne_of_find?_eq_none hr hup) |>.mpr (hm.up_in r g hr) }

/-- A rank that is in but not up or damaged becomes failed. -/
theorem MapInv.fail (hm : MapInv mm) {rank : Rank} (hin : rank ∈ mm.inRanks)
    (hdamaged : rank ∉ mm.damaged) (hup : find? mm.up rank = none) :
    MapInv { mm with failed := mm.failed.insert rank } :=
  { hm with
    failed_nodup := hm.failed_nodup.insert
    failed_in := fun r hr => by
      rcases List.mem_insert_iff.mp hr with rfl | hr
      · exact hin
      · exact hm.failed_in r hr
    failed_not_damaged := fun r hr => by
      rcases List.mem_insert_iff.mp hr with rfl | hr
      · exact hdamaged
      · exact hm.failed_not_damaged r hr
    holds := fun g i hg hst => by
      obtain ⟨hu, hf, hd⟩ := hm.holds g i hg hst
      exact ⟨hu, fun h => (List.mem_insert_iff.mp h).elim (ne_of_find?_eq_none hu hup) hf, hd⟩ }

/-- A rank that is not in becomes stopped. -/
theorem MapInv.addStopped (hm : MapInv mm) {rank : Rank} (hin : rank ∉ mm.inRanks) :
    MapInv { mm with stopped := mm.stopped.insert rank } :=
  { hm with
    stopped_nodup := hm.stopped_nodup.insert
    stopped_not_in := fun r hr => by
      rcases List.mem_insert_iff.mp hr with rfl | hr
      · exact hin
      · exact hm.stopped_not_in r hr }

/-- `damaged`'s second step: a rank that is in but not up moves from failed to damaged. -/
theorem MapInv.markDamaged (hm : MapInv mm) {rank : Rank} (hin : rank ∈ mm.inRanks)
    (hup : find? mm.up rank = none) :
    MapInv { mm with
      failed := mm.failed.erase rank
      damaged := mm.damaged.insert rank } :=
  { hm with
    failed_nodup := hm.failed_nodup.erase rank
    damaged_nodup := hm.damaged_nodup.insert
    failed_in := fun r hr => hm.failed_in r (List.mem_of_mem_erase hr)
    damaged_in := fun r hr => by
      rcases List.mem_insert_iff.mp hr with rfl | hr
      · exact hin
      · exact hm.damaged_in r hr
    failed_not_damaged := fun r hr hd => by
      rw [hm.failed_nodup.mem_erase_iff] at hr
      rcases List.mem_insert_iff.mp hd with rfl | hd
      · exact hr.1 rfl
      · exact hm.failed_not_damaged r hr.2 hd
    holds := fun g i hg hst => by
      obtain ⟨hu, hf, hd⟩ := hm.holds g i hg hst
      exact ⟨hu, fun h => hf (List.mem_of_mem_erase h),
        fun h => (List.mem_insert_iff.mp h).elim (ne_of_find?_eq_none hu hup) hd⟩ }

/-- `undamaged`: a damaged rank becomes failed. -/
theorem MapInv.undamage (hm : MapInv mm) {rank : Rank} (hd : rank ∈ mm.damaged) :
    MapInv { mm with
      damaged := mm.damaged.erase rank
      failed := mm.failed.insert rank } :=
  { hm with
    failed_nodup := hm.failed_nodup.insert
    damaged_nodup := hm.damaged_nodup.erase rank
    failed_in := fun r hr => by
      rcases List.mem_insert_iff.mp hr with rfl | hr
      · exact hm.damaged_in r hd
      · exact hm.failed_in r hr
    damaged_in := fun r hr => hm.damaged_in r (List.mem_of_mem_erase hr)
    failed_not_damaged := fun r hr hd' => by
      rw [hm.damaged_nodup.mem_erase_iff] at hd'
      rcases List.mem_insert_iff.mp hr with rfl | hr
      · exact hd'.1 rfl
      · exact hm.failed_not_damaged r hr hd'.2
    holds := fun g i hg hst => by
      obtain ⟨hu, hf, hd'⟩ := hm.holds g i hg hst
      have hne : i.rank ≠ rank := fun h => hd' (h ▸ hd)
      exact ⟨hu, fun h => (List.mem_insert_iff.mp h).elim hne hf,
        fun h => hd' (List.mem_of_mem_erase h)⟩ }

/-- A standby-replay daemon leaves the map. -/
theorem MapInv.dropFollower (hm : MapInv mm) {who : Gid} {info : MdsInfo}
    (hinfo : find? mm.mdsInfo who = some info) (hst : info.state = .standbyReplay) :
    MapInv { mm with mdsInfo := OrdMap.erase mm.mdsInfo who } :=
  { hm with
    info_sorted := hm.info_sorted.erase _
    rank_ne_none := fun g i hg => by
      rw [find?_erase hm.info_sorted.nodup] at hg
      split_ifs at hg
      exact hm.rank_ne_none g i hg
    holds := fun g i hg hsr => by
      rw [find?_erase hm.info_sorted.nodup] at hg
      split_ifs at hg
      exact hm.holds g i hg hsr
    up_held := fun r g hr => by
      obtain ⟨i, hi, hir, his⟩ := hm.up_held r g hr
      have hne : g ≠ who := fun h => hm.not_standbyReplay_of_up (h ▸ hr) hinfo hst
      exact ⟨i, by rw [find?_erase_of_ne _ hne]; exact hi, hir, his⟩ }

theorem MapInv.empty (compat : ℕ) : MapInv ⟨compat, [], [], [], [], [], []⟩ where
  up_sorted := List.Pairwise.nil
  info_sorted := List.Pairwise.nil
  in_nodup := List.nodup_nil
  failed_nodup := List.nodup_nil
  damaged_nodup := List.nodup_nil
  stopped_nodup := List.nodup_nil
  failed_in _ h := by cases h
  damaged_in _ h := by cases h
  failed_not_damaged _ h := by cases h
  stopped_not_in _ h := by cases h
  rank_ne_none _ _ h := by cases h
  holds _ _ h := by cases h
  up_in _ _ h := by cases h
  up_held _ _ h := by cases h

/-- `reset_filesystem`'s map: rank 0 in and failed, the other ranks that ever started stopped. -/
theorem MapInv.reset (compat : ℕ) (ranks : List Rank) :
    MapInv ⟨compat, [0], [0], [], ranks.dedup.erase 0, [], []⟩ where
  up_sorted := List.Pairwise.nil
  info_sorted := List.Pairwise.nil
  in_nodup := List.nodup_singleton 0
  failed_nodup := List.nodup_singleton 0
  damaged_nodup := List.nodup_nil
  stopped_nodup := (List.nodup_dedup ranks).erase 0
  failed_in _ h := h
  damaged_in _ h := by cases h
  failed_not_damaged _ _ h := by cases h
  stopped_not_in r hr hin := by
    rw [List.mem_singleton] at hin
    subst hin
    exact (List.nodup_dedup ranks).not_mem_erase hr
  rank_ne_none _ _ h := by cases h
  holds _ _ h := by cases h
  up_in _ _ h := by cases h
  up_held _ _ h := by cases h

theorem promoteMap_compat (mm : MDSMap) (gid : Gid) (info : MdsInfo) (rank : Rank) :
    (promoteMap mm gid info rank).compat = mm.compat := by
  unfold FSMap.promoteMap
  split_ifs <;> rfl

theorem mem_keys_promoteMap (mm : MDSMap) (gid : Gid) (info : MdsInfo) (rank : Rank) (g : Gid) :
    g ∈ keys (promoteMap mm gid info rank).mdsInfo ↔ g = gid ∨ g ∈ keys mm.mdsInfo := by
  unfold FSMap.promoteMap
  split_ifs <;> exact mem_keys_set _ _ _ _

end MapInv

/-! ### Where the daemons are -/

section Placement

variable {m : FSMap}

@[simp] theorem setMdsMap_filesystems (m : FSMap) (f : Fscid) (fs : Filesystem) (mm : MDSMap) :
    (setMdsMap m f fs mm).filesystems = OrdMap.set m.filesystems f { fs with mdsMap := mm } := rfl

/-- A filesystem's map after `setMdsMap`: the new map at its key, the old ones elsewhere. -/
theorem find?_setMdsMap {f f' : Fscid} {fs fs' : Filesystem} {mm : MDSMap}
    (h : find? (setMdsMap m f fs mm).filesystems f' = some fs') :
    (f' = f ∧ fs' = { fs with mdsMap := mm }) ∨ (f' ≠ f ∧ find? m.filesystems f' = some fs') := by
  rw [setMdsMap_filesystems, find?_set] at h
  split_ifs at h with hf
  · exact Or.inl ⟨hf, (Option.some.inj h).symm⟩
  · exact Or.inr ⟨hf, h⟩

/-- A daemon of a filesystem is still one of it after `setMdsMap`, if the new map keeps it. -/
theorem exists_find?_setMdsMap {f f' : Fscid} {fs fs' : Filesystem} {mm : MDSMap} {g : Gid}
    (hfs : find? m.filesystems f = some fs) (hfs' : find? m.filesystems f' = some fs')
    (hg : g ∈ keys fs'.mdsMap.mdsInfo) (hkeep : g ∈ keys fs.mdsMap.mdsInfo → g ∈ keys mm.mdsInfo) :
    ∃ fs'', find? (setMdsMap m f fs mm).filesystems f' = some fs'' ∧
      g ∈ keys fs''.mdsMap.mdsInfo := by
  by_cases hf : f' = f
  · subst hf
    rw [hfs] at hfs'
    cases hfs'
    exact ⟨{ fs with mdsMap := mm }, find?_set_self _ _ _, hkeep hg⟩
  · exact ⟨fs', by rw [setMdsMap_filesystems, find?_set_of_ne _ _ hf]; exact hfs', hg⟩

/-- `setMdsMap` keeps every filesystem's compat and id when the new map keeps compat. -/
theorem Placement.fs_ids_setMdsMap (hp : Placement m) {f : Fscid} {fs : Filesystem}
    {mm : MDSMap} (hfs : find? m.filesystems f = some fs) (hcompat : mm.compat = m.compat) :
    ∀ f' fs', find? (setMdsMap m f fs mm).filesystems f' = some fs' →
      fs'.mdsMap.compat = m.compat ∧ fs'.fscid = f' := by
  intro f' fs' h
  rcases find?_setMdsMap h with ⟨rfl, rfl⟩ | ⟨-, h⟩
  · exact ⟨hcompat, (hp.fs_ids f' fs hfs).2⟩
  · exact hp.fs_ids f' fs' h

/-- A filesystem's map changes while its daemons and compat stay. -/
theorem Placement.keepDaemons (hp : Placement m) {f : Fscid} {fs : Filesystem} {mm : MDSMap}
    (hfs : find? m.filesystems f = some fs) (hcompat : mm.compat = m.compat)
    (hkeys : ∀ g, g ∈ keys mm.mdsInfo ↔ g ∈ keys fs.mdsMap.mdsInfo) :
    Placement (setMdsMap m f fs mm) where
  legacy h := (mem_keys_set _ _ _ _).mpr (Or.inr (hp.legacy h))
  fs_ids := hp.fs_ids_setMdsMap hfs hcompat
  in_fs f' fs' g h hg := by
    rcases find?_setMdsMap h with ⟨rfl, rfl⟩ | ⟨-, h⟩
    · exact hp.in_fs f' fs g hfs ((hkeys g).mp hg)
    · exact hp.in_fs f' fs' g h hg
  standby := hp.standby
  epochs := hp.epochs
  roles g f' h := by
    have hr := hp.roles g f' h
    split_ifs at hr ⊢ with hn
    · exact hr
    · obtain ⟨fs', hfs', hg⟩ := hr
      exact exists_find?_setMdsMap hfs hfs' hg (hkeys g).mpr

/-- A daemon whose role is a filesystem is not one whose role is `NONE`. -/
theorem ne_of_roles {roles : List (Gid × Fscid)} {g gid : Gid} {f : Fscid}
    (hgid : find? roles gid = some fsClusterIdNone) (hg : find? roles g = some f)
    (hf : f ≠ fsClusterIdNone) : g ≠ gid := by
  rintro rfl
  rw [hgid] at hg
  exact hf (Option.some.inj hg).symm

/-- A standby joins filesystem `f`: promoting a standby, and `assign_standby_replay`. -/
theorem Placement.join (hp : Placement m) (hsb : (keys m.standbyDaemons).Nodup)
    (hep : m.standbyEpochs.Nodup) (hids : ∀ f ∈ keys m.filesystems, f ≠ fsClusterIdNone)
    {gid : Gid} {f : Fscid} {fs : Filesystem} {mm : MDSMap}
    (hrole : find? m.mdsRoles gid = some fsClusterIdNone) (hfs : find? m.filesystems f = some fs)
    (hcompat : mm.compat = m.compat)
    (hkeys : ∀ g, g ∈ keys mm.mdsInfo ↔ g = gid ∨ g ∈ keys fs.mdsMap.mdsInfo) :
    Placement { setMdsMap m f fs mm with
      mdsRoles := OrdMap.set m.mdsRoles gid f
      standbyDaemons := OrdMap.erase m.standbyDaemons gid
      standbyEpochs := m.standbyEpochs.erase gid } where
  legacy h := (mem_keys_set _ _ _ _).mpr (Or.inr (hp.legacy h))
  fs_ids := hp.fs_ids_setMdsMap hfs hcompat
  in_fs f' fs' g h hg := by
    have hold : ∀ f₀ fs₀, find? m.filesystems f₀ = some fs₀ → g ∈ keys fs₀.mdsMap.mdsInfo →
        find? (OrdMap.set m.mdsRoles gid f) g = some f₀ ∧
          g ∉ keys (OrdMap.erase m.standbyDaemons gid) ∧ g ∉ m.standbyEpochs.erase gid := by
      intro f₀ fs₀ h₀ hg₀
      obtain ⟨hr, hs, he⟩ := hp.in_fs f₀ fs₀ g h₀ hg₀
      have hne := ne_of_roles hrole hr (hids f₀ (mem_keys_of_find? h₀))
      exact ⟨by rw [find?_set_of_ne _ _ hne]; exact hr,
        fun h' => hs ((mem_keys_erase hsb _ _).mp h').2, fun h' => he (List.mem_of_mem_erase h')⟩
    rcases find?_setMdsMap h with ⟨rfl, rfl⟩ | ⟨-, h⟩
    · rcases (hkeys g).mp hg with rfl | hg
      · exact ⟨find?_set_self _ _ _, fun h' => ((mem_keys_erase hsb _ _).mp h').1 rfl,
          hep.not_mem_erase⟩
      · exact hold f' fs hfs hg
    · exact hold f' fs' h hg
  standby g i h := by
    rw [find?_erase hsb] at h
    split_ifs at h with hg
    obtain ⟨hs, hr, hid, he, hrole'⟩ := hp.standby g i h
    exact ⟨hs, hr, hid, (List.mem_erase_of_ne hg).mpr he,
      by rw [find?_set_of_ne _ _ hg]; exact hrole'⟩
  epochs g hg := by
    obtain ⟨hne, hg⟩ := hep.mem_erase_iff.mp hg
    exact (mem_keys_erase hsb _ _).mpr ⟨hne, hp.epochs g hg⟩
  roles g f' h := by
    rw [find?_set] at h
    split_ifs at h with hg
    · cases h
      have hf := hids f (mem_keys_of_find? hfs)
      rw [if_neg hf]
      exact ⟨{ fs with mdsMap := mm }, find?_set_self _ _ _, (hkeys g).mpr (Or.inl hg)⟩
    · have hr := hp.roles g f' h
      split_ifs at hr ⊢ with hn
      · exact (mem_keys_erase hsb _ _).mpr ⟨hg, hr⟩
      · obtain ⟨fs', hfs', hg'⟩ := hr
        exact exists_find?_setMdsMap hfs hfs' hg' fun h => (hkeys g).mpr (Or.inr h)

/-- A daemon leaves filesystem `f` and `mds_roles`: `erase` of a daemon of a filesystem, and
`stop`. -/
theorem Placement.leave (hp : Placement m) (hroles : (keys m.mdsRoles).Nodup)
    {who : Gid} {f : Fscid} {fs : Filesystem} {mm : MDSMap}
    (hfs : find? m.filesystems f = some fs) (hwho : who ∈ keys fs.mdsMap.mdsInfo)
    (hcompat : mm.compat = m.compat)
    (hkeys : ∀ g, g ∈ keys mm.mdsInfo ↔ g ≠ who ∧ g ∈ keys fs.mdsMap.mdsInfo) :
    Placement { setMdsMap m f fs mm with mdsRoles := OrdMap.erase m.mdsRoles who } where
  legacy h := (mem_keys_set _ _ _ _).mpr (Or.inr (hp.legacy h))
  fs_ids := hp.fs_ids_setMdsMap hfs hcompat
  in_fs f' fs' g h hg := by
    have hwrole := (hp.in_fs f fs who hfs hwho).1
    rcases find?_setMdsMap h with ⟨rfl, rfl⟩ | ⟨hf, h⟩
    · obtain ⟨hne, hg⟩ := (hkeys g).mp hg
      obtain ⟨hr, hs, he⟩ := hp.in_fs f' fs g hfs hg
      exact ⟨by rw [find?_erase_of_ne _ hne]; exact hr, hs, he⟩
    · obtain ⟨hr, hs, he⟩ := hp.in_fs f' fs' g h hg
      have hne : g ≠ who := by
        rintro rfl
        rw [hwrole] at hr
        exact hf (Option.some.inj hr).symm
      exact ⟨by rw [find?_erase_of_ne _ hne]; exact hr, hs, he⟩
  standby g i h := by
    obtain ⟨hs, hr, hid, he, hrole'⟩ := hp.standby g i h
    have hne : g ≠ who := by
      rintro rfl
      exact (hp.in_fs f fs g hfs hwho).2.1 (mem_keys_of_find? h)
    exact ⟨hs, hr, hid, he, by rw [find?_erase_of_ne _ hne]; exact hrole'⟩
  epochs := hp.epochs
  roles g f' h := by
    rw [find?_erase hroles] at h
    split_ifs at h with hg
    have hr := hp.roles g f' h
    split_ifs at hr ⊢ with hn
    · exact hr
    · obtain ⟨fs', hfs', hg'⟩ := hr
      exact exists_find?_setMdsMap hfs hfs' hg' fun h => (hkeys g).mpr ⟨hg, h⟩

/-- `insert` of a new standby. -/
theorem Placement.insertStandby (hp : Placement m) {info : MdsInfo}
    (hnew : find? m.mdsRoles info.globalId = none) (hst : info.state = .standby)
    (hrank : info.rank = mdsRankNone) :
    Placement { m with
      mdsRoles := OrdMap.set m.mdsRoles info.globalId fsClusterIdNone
      standbyDaemons := OrdMap.set m.standbyDaemons info.globalId info
      standbyEpochs := m.standbyEpochs.insert info.globalId } where
  legacy := hp.legacy
  fs_ids := hp.fs_ids
  in_fs f fs g h hg := by
    obtain ⟨hr, hs, he⟩ := hp.in_fs f fs g h hg
    have hne : g ≠ info.globalId := by
      rintro rfl
      rw [hnew] at hr
      cases hr
    refine ⟨by rw [find?_set_of_ne _ _ hne]; exact hr, fun h' => ?_, fun h' => ?_⟩
    · exact ((mem_keys_set _ _ _ _).mp h').elim hne hs
    · exact (List.mem_insert_iff.mp h').elim hne he
  standby g i h := by
    rw [find?_set] at h
    split_ifs at h with hg
    · cases h
      exact ⟨hst, hrank, hg.symm, hg ▸ List.mem_insert_self, hg ▸ find?_set_self _ _ _⟩
    · obtain ⟨hs, hr, hid, he, hrole⟩ := hp.standby g i h
      exact ⟨hs, hr, hid, List.mem_insert_of_mem he, by rw [find?_set_of_ne _ _ hg]; exact hrole⟩
  epochs g hg := by
    rcases List.mem_insert_iff.mp hg with rfl | hg
    · exact (mem_keys_set _ _ _ _).mpr (Or.inl rfl)
    · exact (mem_keys_set _ _ _ _).mpr (Or.inr (hp.epochs g hg))
  roles g f h := by
    rw [find?_set] at h
    split_ifs at h with hg
    · cases h
      rw [if_pos rfl]
      exact (mem_keys_set _ _ _ _).mpr (Or.inl hg)
    · have hr := hp.roles g f h
      split_ifs at hr ⊢
      · exact (mem_keys_set _ _ _ _).mpr (Or.inr hr)
      · exact hr

/-- `erase` of a standby. -/
theorem Placement.dropStandby (hp : Placement m) (hsb : (keys m.standbyDaemons).Nodup)
    (hep : m.standbyEpochs.Nodup) (hroles : (keys m.mdsRoles).Nodup)
    (hids : ∀ f ∈ keys m.filesystems, f ≠ fsClusterIdNone) {who : Gid}
    (hrole : find? m.mdsRoles who = some fsClusterIdNone) :
    Placement { m with
      standbyDaemons := OrdMap.erase m.standbyDaemons who
      standbyEpochs := m.standbyEpochs.erase who
      mdsRoles := OrdMap.erase m.mdsRoles who } where
  legacy := hp.legacy
  fs_ids := hp.fs_ids
  in_fs f fs g h hg := by
    obtain ⟨hr, hs, he⟩ := hp.in_fs f fs g h hg
    have hne := ne_of_roles hrole hr (hids f (mem_keys_of_find? h))
    exact ⟨by rw [find?_erase_of_ne _ hne]; exact hr,
      fun h' => hs ((mem_keys_erase hsb _ _).mp h').2, fun h' => he (List.mem_of_mem_erase h')⟩
  standby g i h := by
    rw [find?_erase hsb] at h
    split_ifs at h with hg
    obtain ⟨hs, hr, hid, he, hrole'⟩ := hp.standby g i h
    exact ⟨hs, hr, hid, (List.mem_erase_of_ne hg).mpr he,
      by rw [find?_erase_of_ne _ hg]; exact hrole'⟩
  epochs g hg := by
    obtain ⟨hne, hg⟩ := hep.mem_erase_iff.mp hg
    exact (mem_keys_erase hsb _ _).mpr ⟨hne, hp.epochs g hg⟩
  roles g f h := by
    rw [find?_erase hroles] at h
    split_ifs at h with hg
    have hr := hp.roles g f h
    split_ifs at hr ⊢
    · exact (mem_keys_erase hsb _ _).mpr ⟨hg, hr⟩
    · exact hr

/-- `create_filesystem` at an id that no filesystem has. -/
theorem Placement.addFs (hp : Placement m) {fscid : Fscid} (hnew : fscid ∉ keys m.filesystems)
    (next : Fscid) :
    Placement { m with
      nextFilesystemId := next
      filesystems := OrdMap.set m.filesystems fscid ⟨fscid, ⟨m.compat, [], [], [], [], [], []⟩⟩
      legacyClientFscid :=
        if (OrdMap.set m.filesystems fscid ⟨fscid, ⟨m.compat, [], [], [], [], [], []⟩⟩).length = 1
        then fscid else m.legacyClientFscid } where
  legacy h := by
    dsimp only at h ⊢
    split_ifs at h ⊢
    · exact (mem_keys_set _ _ _ _).mpr (Or.inl rfl)
    · exact (mem_keys_set _ _ _ _).mpr (Or.inr (hp.legacy h))
  fs_ids f fs h := by
    rw [find?_set] at h
    split_ifs at h with hf
    · cases h
      exact ⟨rfl, hf.symm⟩
    · exact hp.fs_ids f fs h
  in_fs f fs g h hg := by
    rw [find?_set] at h
    split_ifs at h with hf
    · cases h
      cases hg
    · exact hp.in_fs f fs g h hg
  standby := hp.standby
  epochs := hp.epochs
  roles g f h := by
    have hr := hp.roles g f h
    by_cases hn : f = fsClusterIdNone
    · rw [if_pos hn] at hr ⊢
      exact hr
    · rw [if_neg hn] at hr ⊢
      obtain ⟨fs, hfs, hg⟩ := hr
      have hne : f ≠ fscid := fun hf => hnew (hf ▸ mem_keys_of_find? hfs)
      exact ⟨fs, by rw [find?_set_of_ne _ _ hne]; exact hfs, hg⟩

end Placement

/-! ### Each operation keeps the invariant -/

section Ops

variable {m m' : FSMap}

theorem Inv.ids_ne_none (hm : Inv m) : ∀ f ∈ keys m.filesystems, f ≠ fsClusterIdNone := by
  intro f hf hnone
  have h0 := (hm.ids_below f hf).1
  rw [hnone] at h0
  exact absurd h0 (by decide)

theorem Inv.ids_set (hm : Inv m) {f : Fscid} (hf : f ∈ keys m.filesystems) (fs : Filesystem) :
    ∀ f' ∈ keys (OrdMap.set m.filesystems f fs), 0 ≤ f' ∧ f' < m.nextFilesystemId := by
  intro f' hf'
  rcases (mem_keys_set _ _ _ _).mp hf' with rfl | hf'
  · exact hm.ids_below f' hf
  · exact hm.ids_below f' hf'

theorem Inv.maps_set (hm : Inv m) {f : Fscid} {fs : Filesystem} {mm : MDSMap} (hmap : MapInv mm) :
    ∀ f' fs', find? (setMdsMap m f fs mm).filesystems f' = some fs' → MapInv fs'.mdsMap := by
  intro f' fs' h
  rcases find?_setMdsMap h with ⟨-, rfl⟩ | ⟨-, h⟩
  · exact hmap
  · exact hm.maps f' fs' h

/-- A daemon whose role is `NONE` holds no rank in any filesystem. -/
theorem Inv.standby_not_up (hm : Inv m) {gid : Gid}
    (hrole : find? m.mdsRoles gid = some fsClusterIdNone) {f : Fscid} {fs : Filesystem}
    (hfs : find? m.filesystems f = some fs) : ∀ r, find? fs.mdsMap.up r ≠ some gid := by
  intro r hr
  obtain ⟨info, hinfo, -, -⟩ := (hm.maps f fs hfs).up_held r gid hr
  have hrole' := (hm.placed.in_fs f fs gid hfs (mem_keys_of_find? hinfo)).1
  exact ne_of_roles hrole hrole' (hm.ids_ne_none f (mem_keys_of_find? hfs)) rfl

/-- A filesystem's map changes while its daemons stay. -/
theorem Inv.keepDaemons (hm : Inv m) {f : Fscid} {fs : Filesystem} {mm : MDSMap}
    (hfs : find? m.filesystems f = some fs) (hmap : MapInv mm) (hcompat : mm.compat = m.compat)
    (hkeys : ∀ g, g ∈ keys mm.mdsInfo ↔ g ∈ keys fs.mdsMap.mdsInfo) :
    Inv (setMdsMap m f fs mm) where
  placed := hm.placed.keepDaemons hfs hcompat hkeys
  fs_sorted := hm.fs_sorted.set _ _
  roles_sorted := hm.roles_sorted
  standby_sorted := hm.standby_sorted
  epochs_nodup := hm.epochs_nodup
  next_pos := hm.next_pos
  ids_below := hm.ids_set (mem_keys_of_find? hfs) _
  maps := hm.maps_set hmap

/-- A standby joins a filesystem. -/
theorem Inv.join (hm : Inv m) {gid : Gid} {f : Fscid} {fs : Filesystem} {mm : MDSMap}
    (hrole : find? m.mdsRoles gid = some fsClusterIdNone) (hfs : find? m.filesystems f = some fs)
    (hmap : MapInv mm) (hcompat : mm.compat = m.compat)
    (hkeys : ∀ g, g ∈ keys mm.mdsInfo ↔ g = gid ∨ g ∈ keys fs.mdsMap.mdsInfo) :
    Inv { setMdsMap m f fs mm with
      mdsRoles := OrdMap.set m.mdsRoles gid f
      standbyDaemons := OrdMap.erase m.standbyDaemons gid
      standbyEpochs := m.standbyEpochs.erase gid } where
  placed := hm.placed.join hm.standby_sorted.nodup hm.epochs_nodup hm.ids_ne_none hrole hfs
    hcompat hkeys
  fs_sorted := hm.fs_sorted.set _ _
  roles_sorted := hm.roles_sorted.set _ _
  standby_sorted := hm.standby_sorted.erase _
  epochs_nodup := hm.epochs_nodup.erase _
  next_pos := hm.next_pos
  ids_below := hm.ids_set (mem_keys_of_find? hfs) _
  maps := hm.maps_set hmap

/-- A daemon leaves its filesystem. -/
theorem Inv.leave (hm : Inv m) {who : Gid} {f : Fscid} {fs : Filesystem} {mm : MDSMap}
    (hfs : find? m.filesystems f = some fs) (hwho : who ∈ keys fs.mdsMap.mdsInfo)
    (hmap : MapInv mm) (hcompat : mm.compat = m.compat)
    (hkeys : ∀ g, g ∈ keys mm.mdsInfo ↔ g ≠ who ∧ g ∈ keys fs.mdsMap.mdsInfo) :
    Inv { setMdsMap m f fs mm with mdsRoles := OrdMap.erase m.mdsRoles who } where
  placed := hm.placed.leave hm.roles_sorted.nodup hfs hwho hcompat hkeys
  fs_sorted := hm.fs_sorted.set _ _
  roles_sorted := hm.roles_sorted.erase _
  standby_sorted := hm.standby_sorted
  epochs_nodup := hm.epochs_nodup
  next_pos := hm.next_pos
  ids_below := hm.ids_set (mem_keys_of_find? hfs) _
  maps := hm.maps_set hmap

theorem Inv.createFilesystem (hm : Inv m) {jewel : Bool} (h : createFilesystem jewel m = some m') :
    Inv m' := by
  obtain ⟨fscid, hid, -, hfirst, rfl⟩ := createFilesystem_some h
  have hnew : fscid ∉ keys m.filesystems := by
    cases jewel with
    | true =>
      intro hk
      have hlt := (hm.ids_below fscid hk).2
      rw [hid, if_pos rfl] at hlt
      exact lt_irrefl _ hlt
    | false =>
      rw [hfirst rfl]
      exact List.not_mem_nil
  have hnext : m.nextFilesystemId ≤ if jewel then m.nextFilesystemId + 1 else m.nextFilesystemId := by
    split_ifs
    · exact le_of_lt (Int.lt_succ _)
    · exact le_refl _
  have hrange : 0 ≤ fscid ∧ fscid < if jewel then m.nextFilesystemId + 1 else m.nextFilesystemId := by
    subst hid
    cases jewel
    · exact ⟨le_refl 0, hm.next_pos⟩
    · exact ⟨le_of_lt hm.next_pos, Int.lt_succ _⟩
  refine ⟨hm.placed.addFs hnew _, hm.fs_sorted.set _ _, hm.roles_sorted, hm.standby_sorted,
    hm.epochs_nodup, lt_of_lt_of_le hm.next_pos hnext, fun f hf => ?_, fun f fs hfs => ?_⟩
  · rcases (mem_keys_set _ _ _ _).mp hf with rfl | hf
    · exact hrange
    · have := hm.ids_below f hf
      exact ⟨this.1, lt_of_lt_of_le this.2 hnext⟩
  · rw [find?_set] at hfs
    split_ifs at hfs
    · cases hfs
      exact MapInv.empty _
    · exact hm.maps f fs hfs

theorem Inv.resetFilesystem (hm : Inv m) {fscid : Fscid} (h : resetFilesystem fscid m = some m')
    (hempty : ∀ fs, find? m.filesystems fscid = some fs → fs.mdsMap.mdsInfo = []) : Inv m' := by
  obtain ⟨fs, hfs, rfl⟩ := resetFilesystem_some h
  rw [(hm.placed.fs_ids fscid fs hfs).2]
  exact hm.keepDaemons hfs (MapInv.reset _ _) rfl (by simp [hempty fs hfs])

theorem Inv.insert (hm : Inv m) {info : MdsInfo} (h : FSMap.insert info m = some m')
    (hnew : find? m.mdsRoles info.globalId = none) : Inv m' := by
  obtain ⟨hst, hrank, rfl⟩ := insert_some h
  exact { hm with
    placed := hm.placed.insertStandby hnew hst hrank
    roles_sorted := hm.roles_sorted.set _ _
    standby_sorted := hm.standby_sorted.set _ _
    epochs_nodup := hm.epochs_nodup.insert }

theorem Inv.promote (hm : Inv m) {gid : Gid} {fscid : Fscid} {rank : Rank}
    (h : promote gid fscid rank m = some m') (hrank : rank ≠ mdsRankNone)
    (hallowed : ∀ fs, find? m.filesystems fscid = some fs →
      rank ∈ fs.mdsMap.failed ∨ rank ∈ fs.mdsMap.stopped ∨ rank ∉ fs.mdsMap.inRanks) :
    Inv m' := by
  obtain ⟨fs, info, hfs, ⟨hrole, -, -, rfl⟩ | ⟨role, -, -, hinfo, hst, -, rfl⟩⟩ :=
    promote_some h
  · have hmap := (hm.maps fscid fs hfs).promoteMap info hrank (hm.standby_not_up hrole hfs)
      (hallowed fs hfs)
    exact hm.join hrole hfs hmap
      (by rw [promoteMap_compat]; exact (hm.placed.fs_ids fscid fs hfs).1)
      (mem_keys_promoteMap _ _ _ _)
  · have hrole' := (hm.placed.in_fs fscid fs gid hfs (mem_keys_of_find? hinfo)).1
    rw [set_eq_self_of_find? hm.roles_sorted hrole']
    have hfree : ∀ r, find? fs.mdsMap.up r ≠ some gid := fun r hr =>
      (hm.maps fscid fs hfs).not_standbyReplay_of_up hr hinfo hst
    refine hm.keepDaemons hfs ((hm.maps fscid fs hfs).promoteMap info hrank hfree (hallowed fs hfs))
      (by rw [promoteMap_compat]; exact (hm.placed.fs_ids fscid fs hfs).1) fun g => ?_
    rw [mem_keys_promoteMap]
    exact ⟨fun hg => hg.elim (fun h => h ▸ mem_keys_of_find? hinfo) id, Or.inr⟩

theorem Inv.assignStandbyReplay (hm : Inv m) {gid : Gid} {leaderNs : Fscid} {leaderRank : Rank}
    (h : assignStandbyReplay gid leaderNs leaderRank m = some m')
    (hrank : leaderRank ≠ mdsRankNone) : Inv m' := by
  obtain ⟨fs, info, hrole, -, hfs, rfl⟩ := assignStandbyReplay_some h
  exact hm.join hrole hfs ((hm.maps _ fs hfs).follow info hrank (hm.standby_not_up hrole hfs))
    (hm.placed.fs_ids _ fs hfs).1 (fun g => mem_keys_set _ _ _ _)

theorem Inv.erase (hm : Inv m) {who : Gid} (h : FSMap.erase who m = some m') : Inv m' := by
  rcases erase_some h with ⟨hrole, rfl⟩ |
    ⟨role, fs, info, -, -, hfs, hinfo, ⟨hst, rfl⟩ | ⟨hst, -, rfl⟩⟩
  · exact { hm with
      placed := hm.placed.dropStandby hm.standby_sorted.nodup hm.epochs_nodup
        hm.roles_sorted.nodup hm.ids_ne_none hrole
      roles_sorted := hm.roles_sorted.erase _
      standby_sorted := hm.standby_sorted.erase _
      epochs_nodup := hm.epochs_nodup.erase _ }
  · have hmap := hm.maps role fs hfs
    exact hm.leave hfs (mem_keys_of_find? hinfo) (hmap.dropFollower hinfo hst)
      (hm.placed.fs_ids role fs hfs).1 (mem_keys_erase hmap.info_sorted.nodup who)
  · have hmap := hm.maps role fs hfs
    obtain ⟨hheld, hf, hd⟩ := hmap.holds who info hinfo hst
    have hdrop := hmap.dropHolder hinfo hst
    have hgone := find?_erase_self hmap.up_sorted.nodup info.rank
    have hmap' : MapInv { eraseRanks fs.mdsMap info with
        up := OrdMap.erase fs.mdsMap.up info.rank
        mdsInfo := OrdMap.erase fs.mdsMap.mdsInfo who } := by
      unfold eraseRanks
      split_ifs
      · exact hdrop.eraseIn hf hd hgone
      · exact hdrop.fail (hmap.up_in _ _ hheld) hd hgone
    exact hm.leave hfs (mem_keys_of_find? hinfo) hmap'
      (by rw [eraseRanks_compat]; exact (hm.placed.fs_ids role fs hfs).1)
      (mem_keys_erase hmap.info_sorted.nodup who)

theorem Inv.stop (hm : Inv m) {who : Gid} (h : (FSMap.stop who m).map Prod.fst = some m') :
    Inv m' := by
  obtain ⟨role, fs, info, -, -, hfs, hinfo, hnof, rfl⟩ := stop_some h
  have hmap := hm.maps role fs hfs
  have hst : info.state ≠ .standbyReplay := fun hsr => hnof (who, info) (mem_of_find? hinfo) ⟨rfl, hsr⟩
  obtain ⟨-, hf, hd⟩ := hmap.holds who info hinfo hst
  have herased := (hmap.dropHolder hinfo hst).eraseIn hf hd
    (find?_erase_self hmap.up_sorted.nodup info.rank)
  exact hm.leave hfs (mem_keys_of_find? hinfo) (herased.addStopped hmap.in_nodup.not_mem_erase)
    (hm.placed.fs_ids role fs hfs).1 (mem_keys_erase hmap.info_sorted.nodup who)

/-- The daemon `who` where `mds_roles` places it. -/
def daemonInfo (m : FSMap) (who : Gid) : Option MdsInfo := do
  let f ← find? m.mdsRoles who
  let fs ← find? m.filesystems f
  find? fs.mdsMap.mdsInfo who

theorem Inv.damaged (hm : Inv m) {who : Gid} (h : FSMap.damaged who m = some m')
    (hallowed : ∀ role fs info, find? m.mdsRoles who = some role →
      find? m.filesystems role = some fs → find? fs.mdsMap.mdsInfo who = some info →
      find? fs.mdsMap.up info.rank = some who)
    (hguard : ∀ info, daemonInfo m who = some info → info.state ≠ .creating) : Inv m' := by
  obtain ⟨role, fs, info, m₁, fs₁, hrole, hne, hfs, hinfo, herase, hfs₁, rfl⟩ := damaged_some h
  have hmap := hm.maps role fs hfs
  have hup := hallowed role fs info hrole hfs hinfo
  have hnc := hguard info (by simp [daemonInfo, hrole, hfs, hinfo])
  have hst : info.state ≠ .standbyReplay := hmap.not_standbyReplay_of_up hup hinfo
  have hm₁ := hm.erase herase
  rcases erase_some herase with ⟨hrole', -⟩ | ⟨role', fs', info', hrole', -, hfs', hinfo', hcase⟩
  · rw [hrole] at hrole'
    exact absurd (Option.some.inj hrole') hne
  obtain rfl : role = role' := Option.some.inj (hrole.symm.trans hrole')
  obtain rfl : fs = fs' := Option.some.inj (hfs.symm.trans hfs')
  obtain rfl : info = info' := Option.some.inj (hinfo.symm.trans hinfo')
  rcases hcase with ⟨hst', -⟩ | ⟨-, -, rfl⟩
  · exact absurd hst' hst
  · rw [setMdsMap_filesystems, find?_set_self, Option.some.injEq] at hfs₁
    subst hfs₁
    have hmap₁ := hm₁.maps role _ (by rw [setMdsMap_filesystems, find?_set_self])
    have hin : info.rank ∈ (eraseRanks fs.mdsMap info).inRanks := by
      simp only [eraseRanks, if_neg hnc]
      exact hmap.up_in _ _ hup
    refine hm₁.keepDaemons (by rw [setMdsMap_filesystems, find?_set_self])
      (hmap₁.markDamaged hin (find?_erase_self hmap.up_sorted.nodup info.rank)) ?_ fun g => Iff.rfl
    rw [eraseRanks_compat]
    exact (hm.placed.fs_ids role fs hfs).1

theorem Inv.undamaged (hm : Inv m) {fscid : Fscid} {rank : Rank}
    (h : (undamaged fscid rank m).map Prod.fst = some m') : Inv m' := by
  obtain ⟨fs, hfs, ⟨hd, rfl⟩ | ⟨-, rfl⟩⟩ := undamaged_some h
  · exact hm.keepDaemons hfs ((hm.maps _ fs hfs).undamage hd) (hm.placed.fs_ids _ fs hfs).1
      fun g => Iff.rfl
  · exact hm

end Ops

/-! ### Runs -/

/-- What the callers must respect beyond `Call.Allowed` for `sanity()` to hold:
a promoted or followed rank is a real rank, and `damaged` is not called on a daemon that is
still `CREATING` (its `erase` forgets the rank, which then stays damaged without being in). -/
def Call.Guarded (m : FSMap) : Call → Prop
  | .promote _ _ rank => rank ≠ mdsRankNone
  | .assignStandbyReplay _ _ leaderRank => leaderRank ≠ mdsRankNone
  | .damaged who => (daemonInfo m who).all fun info => info.state != .creating
  | _ => True

instance (m : FSMap) : (c : Call) → Decidable (c.Guarded m)
  | .createFilesystem _ | .resetFilesystem _ | .insert _ | .erase _ | .undamaged _ _ | .stop _ =>
    instDecidableTrue
  | .promote _ _ _ | .assignStandbyReplay _ _ _ => instDecidableNot
  | .damaged _ => instDecidableEqBool _ _

/-- One call that meets the callers' conditions and the guards keeps the invariant. -/
theorem Inv.exec {m m' : FSMap} (hm : Inv m) {c : Call} (hallowed : c.Allowed m)
    (hguard : c.Guarded m) (h : c.exec m = some m') : Inv m' := by
  cases c with
  | createFilesystem jewel => exact hm.createFilesystem h
  | resetFilesystem fscid =>
    refine hm.resetFilesystem h fun fs hfs => ?_
    simpa [Call.Allowed, hfs] using hallowed
  | insert info => exact hm.insert h hallowed
  | promote gid fscid rank =>
    refine hm.promote h hguard fun fs hfs => ?_
    simpa [Call.Allowed, hfs] using hallowed
  | assignStandbyReplay gid leaderNs leaderRank => exact hm.assignStandbyReplay h hguard
  | erase who => exact hm.erase h
  | damaged who =>
    refine hm.damaged h (fun role fs info hrole hfs hinfo => ?_) fun info hinfo => ?_
    · simpa [Call.Allowed, hrole, hfs, hinfo] using hallowed
    · simpa [Call.Guarded, hinfo] using hguard
  | undamaged fscid rank => exact hm.undamaged h
  | stop who => exact hm.stop h

theorem inv_run (compat : ℕ) (cs : List Call) {m : FSMap}
    (hcs : Runs.Guarded (fun m c => c.Allowed m ∧ c.Guarded m) Call.exec (empty compat) cs)
    (hrun : run Call.exec (empty compat) cs = some m) : Inv m :=
  run_invariant_guarded Call.exec _ Inv (fun _ _ _ hs hg he => hs.exec hg.1 hg.2 he) cs _ m
    (inv_empty compat) hcs hrun

/-- `sanity()` holds after every run from an empty map in which each call passes its
assertions, meets `Call.Allowed`, and respects the guards. -/
theorem sanity_of_guarded_run (compat : ℕ) (cs : List Call) {m : FSMap}
    (hcs : Runs.Guarded (fun m c => c.Allowed m ∧ c.Guarded m) Call.exec (empty compat) cs)
    (hrun : run Call.exec (empty compat) cs = some m) : Sanity m :=
  (inv_run compat cs hcs hrun).sanity

/-! ### A damaged rank that is not in -/

/-- A filesystem; standby 1 takes rank 0, which is new, and is marked damaged while still
`CREATING`; standby 2 then takes rank 0, which is no longer in. -/
def damagedCreatingRun : List Call :=
  [.createFilesystem true, .insert ⟨1, mdsRankNone, .standby⟩, .promote 1 1 0, .damaged 1,
    .insert ⟨2, mdsRankNone, .standby⟩, .promote 2 1 0]

/-- Without the guard on `damaged`: `damaged` on a `CREATING` daemon drops its rank from `in`
through `erase` but marks it damaged, so a later `promote` takes the rank as not in while it
stays damaged, and `sanity()` fails on the new daemon. -/
theorem damaged_creating_rank_breaks_sanity :
    AllowedRun (empty 0) damagedCreatingRun ∧
      ∃ m, Runs.run Call.exec (empty 0) damagedCreatingRun = some m ∧ ¬Sanity m :=
  ⟨by decide, _, rfl, by decide⟩

end Lunule.FSMap
