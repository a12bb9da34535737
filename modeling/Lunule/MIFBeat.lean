import Lunule.Wire

/-!
The payload of `MIFBeat`, the message in which a rank sends mds0 its load, its beat, its IF value
and the migration decisions meant for it, with the encodings of `mds_load_t` and of the counters
it carries. `encode_payload` first copies the decision vector into the member `decision_map`,
keyed by importer and holding the share only; `decode_payload` rebuilds the vector from the map,
in key order and with the share in both numeric fields. The decay counters carry their value,
delta and velocity; their time of last decay and their rate stay the receiver's.
-/

namespace Lunule.Codec

open Wire

structure UTime where
  sec : UInt32
  nsec : UInt32
  deriving DecidableEq, Repr

/-- `DecayCounter`, with the `k` of its `DecayRate`. -/
structure DecayCounter where
  val : F64
  delta : F64
  vel : F64
  lastDecay : UTime
  rate : F64
  deriving DecidableEq, Repr

/-- `DecayCounter(utime_t())`; `DecayRate()` has `k = 0`. -/
def DecayCounter.zero : DecayCounter := ⟨⟨0⟩, ⟨0⟩, ⟨0⟩, ⟨0, 0⟩, ⟨0⟩⟩

def DecayCounter.encode (c : DecayCounter) : List UInt8 :=
  putVersioned 4 4 (putF64 c.val ++ putF64 c.delta ++ putF64 c.vel)

/-- `DecayCounter::decode(t, p)` into `c`. Encodings before version 2 carry a half-life and
before version 3 a rate; both are read and dropped. `t` is not read. -/
def DecayCounter.decode (c : DecayCounter) : Decoder DecayCounter :=
  getVersioned 4 4 4 fun structV => do
    if structV < 2 then discard getF64
    if structV < 3 then discard getF64
    let val ← getF64
    let delta ← getF64
    let vel ← getF64
    pure { c with val, delta, vel }

/-- The counter `r` after decoding the encoding of `c` into it. -/
def DecayCounter.carry (c r : DecayCounter) : DecayCounter :=
  { r with val := c.val, delta := c.delta, vel := c.vel }

/-- `dirfrag_load_vec_t`: its array of `NUM = 5` counters. -/
structure DirfragLoadVec where
  vec : List DecayCounter
  length_vec : vec.length = 5

/-- `dirfrag_load_vec_t(utime_t())`. -/
def DirfragLoadVec.zero : DirfragLoadVec := ⟨List.replicate 5 .zero, rfl⟩

def DirfragLoadVec.encode (d : DirfragLoadVec) : List UInt8 :=
  putVersioned 2 2 (d.vec.flatMap DecayCounter.encode)

def DirfragLoadVec.decode (d : DirfragLoadVec) : Decoder DirfragLoadVec :=
  getVersioned 2 2 2 fun _ => do
    let vec ← getEach DecayCounter.decode d.vec
    pure ⟨vec.1, vec.2.trans d.length_vec⟩

def DirfragLoadVec.carry (d r : DirfragLoadVec) : DirfragLoadVec :=
  ⟨List.zipWith DecayCounter.carry d.vec r.vec, by simp [d.length_vec, r.length_vec]⟩

/-- `dirfrag_pot_load_t`. -/
structure DirfragPotLoad where
  value : F64
  lastValue : F64
  lastEpoch : Int32
  deriving DecidableEq, Repr

/-- `dirfrag_pot_load_t()`. -/
def DirfragPotLoad.init : DirfragPotLoad := ⟨⟨0⟩, ⟨0⟩, -1⟩

def DirfragPotLoad.encode (p : DirfragPotLoad) : List UInt8 :=
  putF64 p.value ++ putF64 p.lastValue ++ putS32 p.lastEpoch

def DirfragPotLoad.decode : Decoder DirfragPotLoad := do
  let value ← getF64
  let lastValue ← getF64
  let lastEpoch ← getS32
  pure ⟨value, lastValue, lastEpoch⟩

/-- `mds_load_t`. -/
structure MdsLoad where
  auth : DirfragLoadVec
  all : DirfragLoadVec
  potAuth : DirfragPotLoad
  potAll : DirfragPotLoad
  reqRate : F64
  cacheHitRate : F64
  queueLen : F64
  cpuLoadAvg : F64

/-- `mds_load_t(utime_t())`. -/
def MdsLoad.zero : MdsLoad := ⟨.zero, .zero, .init, .init, ⟨0⟩, ⟨0⟩, ⟨0⟩, ⟨0⟩⟩

def MdsLoad.encode (l : MdsLoad) : List UInt8 :=
  putVersioned 2 2 (l.auth.encode ++ l.all.encode ++ l.potAuth.encode ++ l.potAll.encode ++
    putF64 l.reqRate ++ putF64 l.cacheHitRate ++ putF64 l.queueLen ++ putF64 l.cpuLoadAvg)

def MdsLoad.decode (l : MdsLoad) : Decoder MdsLoad :=
  getVersioned 2 2 2 fun _ => do
    let auth ← l.auth.decode
    let all ← l.all.decode
    let potAuth ← DirfragPotLoad.decode
    let potAll ← DirfragPotLoad.decode
    let reqRate ← getF64
    let cacheHitRate ← getF64
    let queueLen ← getF64
    let cpuLoadAvg ← getF64
    pure ⟨auth, all, potAuth, potAll, reqRate, cacheHitRate, queueLen, cpuLoadAvg⟩

def MdsLoad.carry (l r : MdsLoad) : MdsLoad :=
  { l with auth := l.auth.carry r.auth, all := l.all.carry r.all }

/-- `migration_decision_t`. -/
structure MigrationDecision where
  targetImportMds : Int32
  targetExportLoad : F64
  targetExportPercent : F64
  deriving DecidableEq, Repr

structure MIFBeat where
  load : MdsLoad
  beat : Int32
  ifvaule : F64
  myDecision : List MigrationDecision
  decisionMap : List (Int32 × F64)

/-- `MIFBeat()`, the message a receiver decodes into. The source leaves `beat` uninitialized;
every decode overwrites it. -/
def MIFBeat.blank : MIFBeat := ⟨.zero, 0, ⟨0⟩, [], []⟩

/-- `MIFBeat(load, beat, IFvaule, my_decision)`. -/
def MIFBeat.make (load : MdsLoad) (beat : Int32) (ifvaule : F64)
    (myDecision : List MigrationDecision) : MIFBeat :=
  ⟨load, beat, ifvaule, myDecision, []⟩

/-- One pass of the loop of `encode_payload`, which makes the same assignment twice. -/
def recordDecision (dm : List (Int32 × F64)) (d : MigrationDecision) : List (Int32 × F64) :=
  let dm := OrdMap.set dm d.targetImportMds d.targetExportPercent
  OrdMap.set dm d.targetImportMds d.targetExportPercent

/-- `encode_payload`: the message with its `decision_map` updated, and the payload. -/
def MIFBeat.encodePayload (m : MIFBeat) : MIFBeat × List UInt8 :=
  let decisionMap := m.myDecision.foldl recordDecision m.decisionMap
  ({ m with decisionMap },
    m.load.encode ++ putS32 m.beat ++ putF64 m.ifvaule ++ putMap putS32 putF64 decisionMap)

/-- `decode_payload` into `m`. -/
def MIFBeat.decodePayload (m : MIFBeat) : Decoder MIFBeat := do
  let load ← m.load.decode
  let beat ← getS32
  let ifvaule ← getF64
  let decisionMap ← getMap getS32 getF64
  pure { m with load, beat, ifvaule, decisionMap,
                myDecision := m.myDecision ++ decisionMap.map fun e => ⟨e.1, e.2, e.2⟩ }

/-- What the receiver holds after `decode_payload` of what `encode_payload` sent. -/
def delivered (m : MIFBeat) : Except DecodeError MIFBeat :=
  Prod.fst <$> MIFBeat.blank.decodePayload.run m.encodePayload.2

/-! ### Reading back each part -/

theorem DecayCounter.decode_reads (c r : DecayCounter) :
    ReadsFrom r.decode c.encode (c.carry r) := by
  refine getVersioned_reads (by decide) (by decide) (by decide) (by simp [putF64, putU64]) ?_
  simp only [show ¬((4 : UInt8) < 2) by decide, show ¬((4 : UInt8) < 3) by decide, if_false]
  refine ((getF64_reads _).bind ((getF64_reads _).bind ((getF64_reads _).bind_pure _))).congr_bytes ?_
  simp

@[simp] theorem DecayCounter.length_encode (c : DecayCounter) : c.encode.length = 30 := by
  simp [DecayCounter.encode, putVersioned, putU8, putU32, putF64, putU64]

theorem DirfragLoadVec.decode_reads (d r : DirfragLoadVec) :
    ReadsFrom r.decode d.encode (d.carry r) := by
  have hlen : (d.vec.flatMap DecayCounter.encode).length < 2 ^ 32 := by
    simp [List.length_flatMap, d.length_vec]
  refine getVersioned_reads (by decide) (by decide) (by decide) hlen ?_
  exact (getEach_reads DecayCounter.decode_reads d.vec r.vec
    (by rw [d.length_vec, r.length_vec])).bind_pure _

@[simp] theorem DirfragLoadVec.length_encode (d : DirfragLoadVec) : d.encode.length = 156 := by
  simp [DirfragLoadVec.encode, putVersioned, putU8, putU32, List.length_flatMap, d.length_vec]

theorem DirfragPotLoad.decode_reads (p : DirfragPotLoad) :
    ReadsFrom DirfragPotLoad.decode p.encode p :=
  ((getF64_reads _).bind ((getF64_reads _).bind ((getS32_reads _).bind_pure _))).congr_bytes
    (by simp [DirfragPotLoad.encode])

@[simp] theorem DirfragPotLoad.length_encode (p : DirfragPotLoad) : p.encode.length = 20 := by
  simp [DirfragPotLoad.encode, putF64, putU64, putS32, putU32]

theorem MdsLoad.decode_reads (l r : MdsLoad) : ReadsFrom r.decode l.encode (l.carry r) := by
  refine getVersioned_reads (by decide) (by decide) (by decide) (by simp [putF64, putU64]) ?_
  simp only [List.append_assoc]
  refine (l.auth.decode_reads r.auth).bind ?_
  refine (l.all.decode_reads r.all).bind ?_
  refine l.potAuth.decode_reads.bind ?_
  refine l.potAll.decode_reads.bind ?_
  refine (getF64_reads _).bind ((getF64_reads _).bind ((getF64_reads _).bind ?_))
  exact (getF64_reads _).bind_pure _

/-! ### The payload -/

theorem MIFBeat.decodePayload_reads (m r : MIFBeat) {dm : List (Int32 × F64)}
    (hm : OrdMap.Sorted dm) (hlen : dm.length < 2 ^ 32) :
    ReadsFrom r.decodePayload
      (m.load.encode ++ putS32 m.beat ++ putF64 m.ifvaule ++ putMap putS32 putF64 dm)
      { r with load := m.load.carry r.load, beat := m.beat, ifvaule := m.ifvaule, decisionMap := dm,
               myDecision := r.myDecision ++ dm.map fun e => ⟨e.1, e.2, e.2⟩ } := by
  refine ((m.load.decode_reads r.load).bind ((getS32_reads _).bind ((getF64_reads _).bind
    ((getMap_reads getS32_reads getF64_reads hm hlen).bind_pure _)))).congr_bytes ?_
  simp

theorem sorted_foldl_recordDecision {dm : List (Int32 × F64)} (hm : OrdMap.Sorted dm)
    (ds : List MigrationDecision) : OrdMap.Sorted (ds.foldl recordDecision dm) := by
  induction ds generalizing dm with
  | nil => exact hm
  | cons d ds ih => exact ih ((hm.set _ _).set _ _)

/-- The second assignment of the loop changes nothing. -/
theorem recordDecision_eq {dm : List (Int32 × F64)} (hm : OrdMap.Sorted dm)
    (d : MigrationDecision) :
    recordDecision dm d = OrdMap.set dm d.targetImportMds d.targetExportPercent :=
  OrdMap.set_eq_self_of_find? (hm.set _ _) (OrdMap.find?_set_self _ _ _)

theorem length_foldl_recordDecision {dm : List (Int32 × F64)} (hm : OrdMap.Sorted dm)
    (ds : List MigrationDecision) : (ds.foldl recordDecision dm).length ≤ dm.length + ds.length := by
  induction ds generalizing dm with
  | nil => simp
  | cons d ds ih =>
    have hstep := OrdMap.length_set_le dm d.targetImportMds d.targetExportPercent
    have hrest := ih (hm.set d.targetImportMds d.targetExportPercent)
    rw [List.foldl_cons, recordDecision_eq hm]
    simp only [List.length_cons]
    omega

/-- Decisions whose importers increase are recorded in their order. -/
theorem foldl_recordDecision_of_sorted {ds : List MigrationDecision}
    (hds : (ds.map (·.targetImportMds)).Pairwise (· < ·)) :
    ∀ {acc : List (Int32 × F64)}, OrdMap.Sorted acc →
      (∀ j ∈ OrdMap.keys acc, ∀ d ∈ ds, j < d.targetImportMds) →
      ds.foldl recordDecision acc =
        acc ++ ds.map fun d => (d.targetImportMds, d.targetExportPercent) := by
  induction ds with
  | nil => simp
  | cons d ds ih =>
    intro acc hacc hlt
    have hds' : (∀ d' ∈ ds, d.targetImportMds < d'.targetImportMds) ∧
        (ds.map (·.targetImportMds)).Pairwise (· < ·) := by
      simpa using hds
    have hset : recordDecision acc d = acc ++ [(d.targetImportMds, d.targetExportPercent)] := by
      rw [recordDecision_eq hacc]
      exact OrdMap.set_eq_append _ fun j hj => hlt j hj d List.mem_cons_self
    have hnext : ∀ j ∈ OrdMap.keys (acc ++ [(d.targetImportMds, d.targetExportPercent)]),
        ∀ d' ∈ ds, j < d'.targetImportMds := by
      intro j hj d' hd'
      simp only [OrdMap.keys_append, OrdMap.keys_cons, OrdMap.keys_nil, List.mem_append,
        List.mem_singleton] at hj
      rcases hj with hj | rfl
      · exact hlt j hj d' (List.mem_cons_of_mem _ hd')
      · exact hds'.1 d' hd'
    have hsorted : OrdMap.Sorted (acc ++ [(d.targetImportMds, d.targetExportPercent)]) := by
      rw [← hset]
      exact (hacc.set _ _).set _ _
    rw [List.foldl_cons, hset, ih hds'.2 hsorted hnext]
    simp

/-- The receiver gets the load with its counters' values, the beat and the IF value, and as
decisions the entries of `decision_map` in key order, with the share in both numeric fields. -/
theorem delivered_eq (m : MIFBeat) (hm : OrdMap.Sorted m.decisionMap)
    (hlen : m.encodePayload.1.decisionMap.length < 2 ^ 32) :
    delivered m = .ok
      { load := m.load.carry .zero, beat := m.beat, ifvaule := m.ifvaule,
        myDecision := m.encodePayload.1.decisionMap.map fun e => ⟨e.1, e.2, e.2⟩,
        decisionMap := m.encodePayload.1.decisionMap } := by
  have h := MIFBeat.decodePayload_reads m MIFBeat.blank (sorted_foldl_recordDecision hm _) hlen []
  rw [List.append_nil] at h
  simp only [delivered, MIFBeat.encodePayload] at h ⊢
  rw [h]
  rfl

/-! ### What survives the trip -/

theorem DecayCounter.carry_zero_eq_iff (c : DecayCounter) :
    c.carry .zero = c ↔ c.lastDecay = ⟨0, 0⟩ ∧ c.rate = ⟨0⟩ := by
  obtain ⟨val, delta, vel, lastDecay, rate⟩ := c
  simp [DecayCounter.carry, DecayCounter.zero, eq_comm]

theorem zipWith_carry_replicate (l : List DecayCounter) :
    List.zipWith DecayCounter.carry l (List.replicate l.length .zero) = l ↔
      ∀ c ∈ l, c.lastDecay = ⟨0, 0⟩ ∧ c.rate = ⟨0⟩ := by
  induction l with
  | nil => simp
  | cons c l ih => simp [List.replicate_succ, ih, DecayCounter.carry_zero_eq_iff]

theorem DirfragLoadVec.carry_zero_eq_iff (d : DirfragLoadVec) :
    d.carry .zero = d ↔ ∀ c ∈ d.vec, c.lastDecay = ⟨0, 0⟩ ∧ c.rate = ⟨0⟩ := by
  obtain ⟨vec, hvec⟩ := d
  rw [← zipWith_carry_replicate, hvec]
  simp [DirfragLoadVec.carry, DirfragLoadVec.zero]

/-- The load comes back as sent exactly when none of its counters has a time of last decay or a
rate other than zero. -/
theorem MdsLoad.carry_zero_eq_iff (l : MdsLoad) :
    l.carry .zero = l ↔ ∀ c ∈ l.auth.vec ++ l.all.vec, c.lastDecay = ⟨0, 0⟩ ∧ c.rate = ⟨0⟩ := by
  rw [List.forall_mem_append, ← DirfragLoadVec.carry_zero_eq_iff,
    ← DirfragLoadVec.carry_zero_eq_iff]
  obtain ⟨auth, all, potAuth, potAll, reqRate, cacheHitRate, queueLen, cpuLoadAvg⟩ := l
  simp [MdsLoad.carry, MdsLoad.zero]

/-- The decisions come back as sent exactly when their importers increase and each load equals
its share. -/
theorem delivered_decisions_eq_iff (load : MdsLoad) (beat : Int32) (ifvaule : F64)
    (ds : List MigrationDecision) (hlen : ds.length < 2 ^ 32) :
    (fun m => m.myDecision) <$> delivered (.make load beat ifvaule ds) = .ok ds ↔
      (ds.map (·.targetImportMds)).Pairwise (· < ·) ∧
        ∀ d ∈ ds, d.targetExportLoad = d.targetExportPercent := by
  have hnil : OrdMap.Sorted ([] : List (Int32 × F64)) := List.Pairwise.nil
  have hdm : (ds.foldl recordDecision []).length < 2 ^ 32 :=
    lt_of_le_of_lt (by simpa using length_foldl_recordDecision hnil ds) hlen
  rw [delivered_eq (.make load beat ifvaule ds) hnil hdm]
  simp only [MIFBeat.make, MIFBeat.encodePayload, Functor.map, Except.map, Except.ok.injEq]
  constructor
  · intro h
    have hsorted := sorted_foldl_recordDecision hnil ds
    generalize ds.foldl recordDecision [] = dm at hsorted h
    subst h
    refine ⟨?_, fun d hd => ?_⟩
    · simpa [OrdMap.Sorted, OrdMap.keys, List.map_map, Function.comp_def] using hsorted
    · obtain ⟨e, -, rfl⟩ := List.mem_map.1 hd
      rfl
  · rintro ⟨hinc, hload⟩
    rw [foldl_recordDecision_of_sorted hinc hnil (by simp), List.nil_append, List.map_map]
    refine (List.map_congr_left fun d hd => ?_).trans (List.map_id ds)
    obtain ⟨imp, l, p⟩ := d
    have hlp : l = p := hload _ hd
    subst hlp
    rfl

/-- Importer 2 is sent load 10.0 and share 0.25, then importer 1 load 5.0 and share 0.125. -/
def sampleDecisions : List MigrationDecision :=
  [⟨2, ⟨0x4024000000000000⟩, ⟨0x3FD0000000000000⟩⟩, ⟨1, ⟨0x4014000000000000⟩, ⟨0x3FC0000000000000⟩⟩]

theorem delivered_reorders_decisions (load : MdsLoad) (beat : Int32) (ifvaule : F64) :
    (fun m => m.myDecision) <$> delivered (.make load beat ifvaule sampleDecisions) =
      .ok [⟨1, ⟨0x3FC0000000000000⟩, ⟨0x3FC0000000000000⟩⟩,
        ⟨2, ⟨0x3FD0000000000000⟩, ⟨0x3FD0000000000000⟩⟩] := by
  have hnil : OrdMap.Sorted ([] : List (Int32 × F64)) := List.Pairwise.nil
  have hlen : (sampleDecisions.foldl recordDecision []).length < 2 ^ 32 := by decide
  rw [delivered_eq (.make load beat ifvaule sampleDecisions) hnil hlen]
  rfl

end Lunule.Codec
