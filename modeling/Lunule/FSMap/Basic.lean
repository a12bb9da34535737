import Lunule.OrdMap
import Lunule.Runs

/-!
The monitor's `FSMap`: the filesystems, each with its `MDSMap` of rank sets (`in`, `failed`,
`damaged`, `stopped`), the `up` map from ranks to daemons and the `mds_info` of its daemons;
the standby daemons outside any filesystem; and `mds_roles`, which says where each daemon's
info lives. `FSMap::sanity()` asserts that these agree. The operations that move daemons
between the standbys and the filesystems and change the rank sets are modelled with their
assertions: an assertion that fails, or an `at` on a missing key, is `none`.

Epochs, pools, names and the other fields of `mds_info_t` and `MDSMap` are left out: none of
the operations reads them and `sanity()` does not look at them.
-/

namespace Lunule.FSMap

/-- `mds_gid_t`. -/
abbrev Gid := ℕ

/-- `mds_rank_t`. -/
abbrev Rank := ℤ

/-- `fs_cluster_id_t`. -/
abbrev Fscid := ℤ

def mdsRankNone : Rank := -1

def fsClusterIdNone : Fscid := -1

def fsClusterIdAnonymous : Fscid := 0

/-- The daemon states these operations give. -/
inductive DaemonState
  | standby | standbyReplay | creating | starting | replay
  deriving DecidableEq, Repr

/-- `mds_info_t`, with the fields the operations read. -/
structure MdsInfo where
  globalId : Gid
  rank : Rank
  state : DaemonState
  deriving DecidableEq, Repr

/-- `MDSMap`, with its rank sets as lists. -/
structure MDSMap where
  compat : ℕ
  inRanks : List Rank
  failed : List Rank
  damaged : List Rank
  stopped : List Rank
  up : List (Rank × Gid)
  mdsInfo : List (Gid × MdsInfo)
  deriving DecidableEq, Repr

structure Filesystem where
  fscid : Fscid
  mdsMap : MDSMap
  deriving DecidableEq, Repr

end Lunule.FSMap

namespace Lunule

open FSMap in
/-- `FSMap`. `standby_epochs` keeps only its keys: the epochs are not read. -/
structure FSMap where
  compat : ℕ
  nextFilesystemId : Fscid
  legacyClientFscid : Fscid
  filesystems : List (Fscid × Filesystem)
  mdsRoles : List (Gid × Fscid)
  standbyDaemons : List (Gid × MdsInfo)
  standbyEpochs : List Gid
  deriving DecidableEq, Repr

end Lunule

namespace Lunule.FSMap

/-- A fresh map: no filesystem, no daemon, the first id after the anonymous one. -/
def empty (compat : ℕ) : FSMap := ⟨compat, fsClusterIdAnonymous + 1, fsClusterIdNone, [], [], [], []⟩

/-! ### `FSMap::sanity()` -/

/-- The assertions on one filesystem: its id, its compat, each daemon in `mds_info`, and each
up rank. -/
def FilesystemSane (m : FSMap) (fscid : Fscid) (fs : Filesystem) : Prop :=
  fs.mdsMap.compat = m.compat ∧ fs.fscid = fscid ∧
  (∀ j ∈ fs.mdsMap.mdsInfo,
    j.2.rank ≠ mdsRankNone ∧ OrdMap.find? m.mdsRoles j.1 = some fscid ∧
    OrdMap.find? m.standbyDaemons j.1 = none ∧ j.1 ∉ m.standbyEpochs ∧
    (j.2.state ≠ .standbyReplay →
      OrdMap.find? fs.mdsMap.up j.2.rank = some j.1 ∧ j.2.rank ∉ fs.mdsMap.failed ∧
        j.2.rank ∉ fs.mdsMap.damaged)) ∧
  ∀ j ∈ fs.mdsMap.up, j.1 ∈ fs.mdsMap.inRanks ∧ (OrdMap.find? fs.mdsMap.mdsInfo j.2).isSome

/-- `FSMap::sanity()`: every assertion it makes. The `count(...) == 1` of a `std::map` is a
successful lookup. -/
def Sanity (m : FSMap) : Prop :=
  (m.legacyClientFscid ≠ fsClusterIdNone → (OrdMap.find? m.filesystems m.legacyClientFscid).isSome) ∧
  (∀ i ∈ m.filesystems, FilesystemSane m i.1 i.2) ∧
  (∀ i ∈ m.standbyDaemons,
    i.2.state = .standby ∧ i.2.rank = mdsRankNone ∧ i.2.globalId = i.1 ∧ i.1 ∈ m.standbyEpochs ∧
      OrdMap.find? m.mdsRoles i.1 = some fsClusterIdNone) ∧
  (∀ g ∈ m.standbyEpochs, (OrdMap.find? m.standbyDaemons g).isSome) ∧
  ∀ i ∈ m.mdsRoles,
    if i.2 = fsClusterIdNone then (OrdMap.find? m.standbyDaemons i.1).isSome
    else ∃ fs, OrdMap.find? m.filesystems i.2 = some fs ∧ (OrdMap.find? fs.mdsMap.mdsInfo i.1).isSome

instance (m : FSMap) (fscid : Fscid) (fs : Filesystem) : Decidable (FilesystemSane m fscid fs) := by
  unfold FilesystemSane
  infer_instance

instance (m : FSMap) : Decidable (Sanity m) := by
  unfold Sanity
  infer_instance

/-! ### The operations -/

/-- The filesystem `fscid` with its `MDSMap` replaced. -/
def setMdsMap (m : FSMap) (fscid : Fscid) (fs : Filesystem) (mm : MDSMap) : FSMap :=
  { m with filesystems := OrdMap.set m.filesystems fscid { fs with mdsMap := mm } }

/-- `create_filesystem`: with the jewel feature the next id, otherwise the anonymous id on an
empty map; the first filesystem becomes the legacy clients'. -/
def createFilesystem (jewel : Bool) (m : FSMap) : Option FSMap :=
  let fscid := if jewel then m.nextFilesystemId else fsClusterIdAnonymous
  if jewel ∧ fscid = fsClusterIdAnonymous then none
  else if !jewel ∧ m.filesystems ≠ [] then none
  else
    let filesystems := OrdMap.set m.filesystems fscid ⟨fscid, ⟨m.compat, [], [], [], [], [], []⟩⟩
    some { m with
      nextFilesystemId := if jewel then m.nextFilesystemId + 1 else m.nextFilesystemId
      filesystems := filesystems
      legacyClientFscid := if filesystems.length = 1 then fscid else m.legacyClientFscid }

/-- `reset_filesystem`: rank 0 in and failed, the ranks that ever started stopped, no
daemon. -/
def resetFilesystem (fscid : Fscid) (m : FSMap) : Option FSMap := do
  let fs ← OrdMap.find? m.filesystems fscid
  let stopped := ((fs.mdsMap.inRanks ++ fs.mdsMap.stopped).dedup).erase 0
  some { m with
    filesystems := OrdMap.set m.filesystems fs.fscid ⟨fs.fscid, ⟨m.compat, [0], [0], [], stopped, [], []⟩⟩ }

/-- `insert(new_info)`: a new standby. -/
def insert (info : MdsInfo) (m : FSMap) : Option FSMap :=
  if info.state ≠ .standby ∨ info.rank ≠ mdsRankNone then none
  else
    some { m with
      mdsRoles := OrdMap.set m.mdsRoles info.globalId fsClusterIdNone
      standbyDaemons := OrdMap.set m.standbyDaemons info.globalId info
      standbyEpochs := m.standbyEpochs.insert info.globalId }

/-- `promote(standby_gid, filesystem, assigned_rank)`: a standby, or a standby-replay daemon
of the filesystem already following the rank, takes the rank: `STARTING` for a stopped rank,
`CREATING` for one not in, `REPLAY` for a failed one, which is then no longer failed. -/
def promote (gid : Gid) (fscid : Fscid) (rank : Rank) (m : FSMap) : Option FSMap := do
  let role ← OrdMap.find? m.mdsRoles gid
  let fs ← OrdMap.find? m.filesystems fscid
  let isStandbyReplay := role ≠ fsClusterIdNone
  let info ←
    if isStandbyReplay then
      match OrdMap.find? fs.mdsMap.mdsInfo gid with
      | some info =>
        if info.state = .standbyReplay ∧ info.rank = rank then some info else none
      | none => none
    else
      match OrdMap.find? m.standbyDaemons gid with
      | some info => if info.state = .standby then some info else none
      | none => none
  let mm := fs.mdsMap
  let (state, mm) :=
    if rank ∈ mm.stopped then (DaemonState.starting, { mm with stopped := mm.stopped.erase rank })
    else if rank ∉ mm.inRanks then (DaemonState.creating, mm)
    else (DaemonState.replay, { mm with failed := mm.failed.erase rank })
  let mm := { mm with
    mdsInfo := OrdMap.set mm.mdsInfo gid { info with state := state, rank := rank }
    inRanks := mm.inRanks.insert rank
    up := OrdMap.set mm.up rank gid }
  let m := { setMdsMap m fscid fs mm with mdsRoles := OrdMap.set m.mdsRoles gid fscid }
  if isStandbyReplay then some m
  else
    some { m with
      standbyDaemons := OrdMap.erase m.standbyDaemons gid
      standbyEpochs := m.standbyEpochs.erase gid }

/-- `assign_standby_replay(standby_gid, leader_ns, leader_rank)`. -/
def assignStandbyReplay (gid : Gid) (leaderNs : Fscid) (leaderRank : Rank) (m : FSMap) :
    Option FSMap := do
  let role ← OrdMap.find? m.mdsRoles gid
  if role ≠ fsClusterIdNone then none
  let info ← OrdMap.find? m.standbyDaemons gid
  let fs ← OrdMap.find? m.filesystems leaderNs
  let mm := { fs.mdsMap with
    mdsInfo := OrdMap.set fs.mdsMap.mdsInfo gid
      { info with rank := leaderRank, state := .standbyReplay } }
  some { setMdsMap m leaderNs fs mm with
    mdsRoles := OrdMap.set m.mdsRoles gid leaderNs
    standbyDaemons := OrdMap.erase m.standbyDaemons gid
    standbyEpochs := m.standbyEpochs.erase gid }

/-- `erase(who)`: a standby leaves the standbys; a daemon of a filesystem leaves its
`mds_info`, and unless it is standby-replay its rank leaves `up` and becomes failed, or
leaves `in` if the daemon was still `CREATING`. -/
def erase (who : Gid) (m : FSMap) : Option FSMap := do
  let role ← OrdMap.find? m.mdsRoles who
  if role = fsClusterIdNone then
    some { m with
      standbyDaemons := OrdMap.erase m.standbyDaemons who
      standbyEpochs := m.standbyEpochs.erase who
      mdsRoles := OrdMap.erase m.mdsRoles who }
  else
    let fs ← OrdMap.find? m.filesystems role
    let info ← OrdMap.find? fs.mdsMap.mdsInfo who
    let mm ←
      if info.state ≠ .standbyReplay then
        let mm :=
          if info.state = .creating then { fs.mdsMap with inRanks := fs.mdsMap.inRanks.erase info.rank }
          else { fs.mdsMap with failed := fs.mdsMap.failed.insert info.rank }
        if OrdMap.find? mm.up info.rank = some info.globalId then
          some { mm with up := OrdMap.erase mm.up info.rank }
        else none
      else some fs.mdsMap
    some { setMdsMap m role fs { mm with mdsInfo := OrdMap.erase mm.mdsInfo who } with
      mdsRoles := OrdMap.erase m.mdsRoles who }

/-- `damaged(who)`: the daemon is erased and its rank moves from failed to damaged. The
`mds_info[who]` of the source finds the daemon whenever its role names the filesystem. -/
def damaged (who : Gid) (m : FSMap) : Option FSMap := do
  let role ← OrdMap.find? m.mdsRoles who
  if role = fsClusterIdNone then none
  let fs ← OrdMap.find? m.filesystems role
  let info ← OrdMap.find? fs.mdsMap.mdsInfo who
  let m ← erase who m
  let fs ← OrdMap.find? m.filesystems role
  some (setMdsMap m role fs { fs.mdsMap with
    failed := fs.mdsMap.failed.erase info.rank
    damaged := fs.mdsMap.damaged.insert info.rank })

/-- `undamaged(fscid, rank)`: a damaged rank becomes failed; the flag says whether it was
damaged. -/
def undamaged (fscid : Fscid) (rank : Rank) (m : FSMap) : Option (FSMap × Bool) := do
  let fs ← OrdMap.find? m.filesystems fscid
  if rank ∈ fs.mdsMap.damaged then
    some (setMdsMap m fscid fs { fs.mdsMap with
      damaged := fs.mdsMap.damaged.erase rank
      failed := fs.mdsMap.failed.insert rank }, true)
  else some (m, false)

/-- `stop(who)`: the rank leaves `up` and `in` and is stopped. The loop that drops the
standby-replay daemons following the rank iterates over `mds_info` and erases, through
`erase`, the entry its iterator stands on before incrementing that iterator, which is
undefined: the model is `none` as soon as one such daemon is there. -/
def stop (who : Gid) (m : FSMap) : Option (FSMap × List Gid) := do
  let role ← OrdMap.find? m.mdsRoles who
  if role = fsClusterIdNone then none
  let fs ← OrdMap.find? m.filesystems role
  let info ← OrdMap.find? fs.mdsMap.mdsInfo who
  if fs.mdsMap.mdsInfo.any fun j => j.2.rank = info.rank ∧ j.2.state = .standbyReplay then none
  let mm := { fs.mdsMap with
    up := OrdMap.erase fs.mdsMap.up info.rank
    inRanks := fs.mdsMap.inRanks.erase info.rank
    stopped := fs.mdsMap.stopped.insert info.rank
    mdsInfo := OrdMap.erase fs.mdsMap.mdsInfo who }
  some ({ setMdsMap m role fs mm with mdsRoles := OrdMap.erase m.mdsRoles who }, [])

/-! ### Runs -/

/-- The operations, with their arguments. -/
inductive Call
  | createFilesystem (jewel : Bool)
  | resetFilesystem (fscid : Fscid)
  | insert (info : MdsInfo)
  | promote (gid : Gid) (fscid : Fscid) (rank : Rank)
  | assignStandbyReplay (gid : Gid) (leaderNs : Fscid) (leaderRank : Rank)
  | erase (who : Gid)
  | damaged (who : Gid)
  | undamaged (fscid : Fscid) (rank : Rank)
  | stop (who : Gid)
  deriving DecidableEq, Repr

/-- One operation; `none` when one of its assertions fails. -/
def Call.exec (m : FSMap) : Call → Option FSMap
  | .createFilesystem jewel => FSMap.createFilesystem jewel m
  | .resetFilesystem fscid => FSMap.resetFilesystem fscid m
  | .insert info => FSMap.insert info m
  | .promote gid fscid rank => FSMap.promote gid fscid rank m
  | .assignStandbyReplay gid leaderNs leaderRank =>
    FSMap.assignStandbyReplay gid leaderNs leaderRank m
  | .erase who => FSMap.erase who m
  | .damaged who => FSMap.damaged who m
  | .undamaged fscid rank => (FSMap.undamaged fscid rank m).map Prod.fst
  | .stop who => (FSMap.stop who m).map Prod.fst

/-- What the callers ensure beyond the assertions: a filesystem is
reset only without daemons, an inserted standby is new, a promoted rank is failed, stopped
or not yet in, and a damaged daemon holds an up rank. -/
def Call.Allowed (m : FSMap) : Call → Prop
  | .resetFilesystem fscid =>
    match OrdMap.find? m.filesystems fscid with
    | some fs => fs.mdsMap.mdsInfo = []
    | none => False
  | .insert info => OrdMap.find? m.mdsRoles info.globalId = none
  | .promote _ fscid rank =>
    match OrdMap.find? m.filesystems fscid with
    | some fs => rank ∈ fs.mdsMap.failed ∨ rank ∈ fs.mdsMap.stopped ∨ rank ∉ fs.mdsMap.inRanks
    | none => False
  | .damaged who =>
    match OrdMap.find? m.mdsRoles who with
    | some fscid =>
      match OrdMap.find? m.filesystems fscid with
      | some fs =>
        match OrdMap.find? fs.mdsMap.mdsInfo who with
        | some info => OrdMap.find? fs.mdsMap.up info.rank = some who
        | none => False
      | none => False
    | none => False
  | _ => True

instance (m : FSMap) (c : Call) : Decidable (c.Allowed m) := by
  cases c <;> unfold Call.Allowed <;> repeat' split
  all_goals infer_instance

/-- A run whose every call passes its assertions and the callers' conditions. -/
def AllowedRun : FSMap → List Call → Prop
  | _, [] => True
  | m, c :: cs =>
    c.Allowed m ∧ match c.exec m with
      | some m' => AllowedRun m' cs
      | none => False

instance : ∀ (m : FSMap) (cs : List Call), Decidable (AllowedRun m cs)
  | _, [] => isTrue trivial
  | m, c :: cs => by
    unfold AllowedRun
    cases c.exec m with
    | some m' =>
      have := instDecidableAllowedRun m' cs
      infer_instance
    | none => infer_instance

end Lunule.FSMap
