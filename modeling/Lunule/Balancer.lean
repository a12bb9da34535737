import Lunule.OrdMap
import Lunule.Runs

/-!
The balancer's heartbeat protocol between the MDS ranks (MDBalancer.cc). mds0's
tick opens a beat epoch in send_heartbeat and sends MHeartbeat to every other up
rank. A rank that hears mds0's heartbeat adopts its epoch, sends its own
MHeartbeat to every other up rank and an MIFBeat to mds0. mds0 stores the loads
in mds_load and, in handle_ifbeat, computes the imbalance factor once it holds
as many loads as there are in-ranks. One FIFO channel joins each ordered pair of
ranks; channels are served in any order. The n in-ranks 0..n-1 are all up and
active, the cluster is not degraded and every cache is open. The floating-point
factor and the migration decisions are not modelled: a computation is recorded
with its epoch and the load vector it read, after old_req has been updated.
-/

namespace Lunule.Balancer

open OrdMap Runs

/-- MHeartbeat and the MIFBeat a rank sends to mds0, with the fields mds0 reads. -/
inductive Message (L : Type) where
  | heartbeat (load : L) (beat : ℤ)
  | ifbeat (load : L) (beat : ℤ)
  deriving DecidableEq, Repr

namespace Message

variable {L : Type}

def load : Message L → L
  | heartbeat l _ => l
  | ifbeat l _ => l

def beat : Message L → ℤ
  | heartbeat _ b => b
  | ifbeat _ b => b

end Message

/-- The balancer fields of one rank: beat_epoch, mds_load and old_req. -/
structure RankState (L R : Type) where
  beatEpoch : ℤ
  mdsLoad : List (ℕ × L)
  oldReq : List (ℕ × R)

/-- The ranks, the channels, and two history variables: every message sent with its
sender, and every imbalance-factor computation of mds0 with its epoch and loads. -/
structure Cluster (L R : Type) where
  rank : ℕ → RankState L R
  net : ℕ → ℕ → List (Message L)
  sent : List (ℕ × Message L)
  computed : List (ℤ × List L)

/-- A tick of mds0 that fires send_heartbeat, or the dispatch of the oldest message
from `src` to `dst`. The loads are what get_load returns to the receiver in
send_heartbeat and in send_ifbeat. -/
inductive Event (L : Type) where
  | tick (load : L)
  | deliver (src dst : ℕ) (hbLoad ifLoad : L)

section Model

variable {L R : Type} (n : ℕ) (reqRate : L → R)

def Cluster.init : Cluster L R :=
  ⟨fun _ => ⟨0, [], []⟩, fun _ _ => [], [], []⟩

def setRank (s : Cluster L R) (r : ℕ) (st : RankState L R) : Cluster L R :=
  { s with rank := Function.update s.rank r st }

def send (src dst : ℕ) (m : Message L) (s : Cluster L R) : Cluster L R :=
  { s with net := Function.update s.net src (Function.update (s.net src) dst (s.net src dst ++ [m]))
           sent := s.sent ++ [(src, m)] }

/-- The loop of send_heartbeat over the up set, skipping the sender itself. -/
def sendToOthers (whoami : ℕ) (m : Message L) (s : Cluster L R) : Cluster L R :=
  (List.range n).foldl (fun s p => if p = whoami then s else send whoami p m s) s

/-- MDBalancer::send_heartbeat: mds0 opens a new epoch and forgets the loads. -/
def sendHeartbeat (whoami : ℕ) (load : L) (s : Cluster L R) : Cluster L R :=
  let st := s.rank whoami
  let st := if whoami = 0 then { st with beatEpoch := st.beatEpoch + 1, mdsLoad := [] } else st
  let st := { st with mdsLoad := OrdMap.insert st.mdsLoad whoami load }
  sendToOthers n whoami (.heartbeat load st.beatEpoch) (setRank s whoami st)

/-- MDBalancer::send_ifbeat(0, -1, empty): the MIFBeat a rank sends to mds0. -/
def sendIfbeat (whoami : ℕ) (load : L) (s : Cluster L R) : Cluster L R :=
  send whoami 0 (.ifbeat load (s.rank whoami).beatEpoch) s

/-- MDBalancer::handle_heartbeat with the imbalance factor enabled. -/
def handleHeartbeat (whoami who : ℕ) (load : L) (beat : ℤ) (hbLoad ifLoad : L)
    (s : Cluster L R) : Cluster L R :=
  -- a non-zero rank that hears of a newer epoch first adopts it
  let s := if whoami ≠ 0 ∧ beat > (s.rank whoami).beatEpoch then
    setRank s whoami { s.rank whoami with beatEpoch := beat, mdsLoad := [] } else s
  let s := if who = 0 then
    let st := s.rank whoami
    let st := if st.beatEpoch ≠ beat then { st with mdsLoad := [] } else st
    let s := setRank s whoami { st with beatEpoch := beat }
    sendIfbeat whoami ifLoad (sendHeartbeat n whoami hbLoad s)
  else s
  -- mds_load[who] is overwritten whatever the epoch of the message
  let st := s.rank whoami
  setRank s whoami { st with mdsLoad := OrdMap.set st.mdsLoad who load }

/-- mds_load looked up for ranks 0..n-1; `none` where the assert of handle_ifbeat fires. -/
def loadVector (mdsLoad : List (ℕ × L)) : Option (List L) :=
  (List.range n).mapM (OrdMap.find? mdsLoad)

/-- old_req[i] = mds_load[i].req_rate for every rank i. -/
def updateOldReq (oldReq : List (ℕ × R)) (loads : List L) : List (ℕ × R) :=
  loads.zipIdx.foldl (fun m p => OrdMap.set m p.2 (reqRate p.1)) oldReq

/-- MDBalancer::handle_ifbeat. On mds0 an MIFBeat of another epoch is dropped; one of the
current epoch is inserted without overwriting, and the factor is computed whenever
mds_load then holds num_in loads. On the other ranks only the decisions are acted on. -/
def handleIfbeat (whoami who : ℕ) (load : L) (beat : ℤ) (s : Cluster L R) :
    Option (Cluster L R) :=
  if whoami = 0 then
    let st := s.rank 0
    if beat ≠ st.beatEpoch then some s
    else
      let st := { st with mdsLoad := OrdMap.insert st.mdsLoad who load }
      if n = st.mdsLoad.length then
        match loadVector n st.mdsLoad with
        | none => none
        | some loads =>
          some { setRank s 0 { st with oldReq := updateOldReq reqRate st.oldReq loads } with
                 computed := s.computed ++ [(st.beatEpoch, loads)] }
      else some (setRank s 0 st)
  else some s

/-- One event of the cluster; `none` for an empty channel or a failed assert. -/
def exec (s : Cluster L R) : Event L → Option (Cluster L R)
  | .tick load => some (sendHeartbeat n 0 load s)
  | .deliver src dst hbLoad ifLoad =>
    match s.net src dst with
    | [] => none
    | m :: rest =>
      let s := { s with net := Function.update s.net src (Function.update (s.net src) dst rest) }
      match m with
      | .heartbeat load beat => some (handleHeartbeat n dst src load beat hbLoad ifLoad s)
      | .ifbeat load beat => handleIfbeat n reqRate dst src load beat s

end Model

/-! ## Frame lemmas -/

section Frame

variable {L R : Type} (n : ℕ)

@[simp] theorem setRank_rank (s : Cluster L R) (r q : ℕ) (st : RankState L R) :
    (setRank s r st).rank q = if q = r then st else s.rank q := by
  simp [setRank, Function.update_apply]

@[simp] theorem setRank_net (s : Cluster L R) (r : ℕ) (st : RankState L R) :
    (setRank s r st).net = s.net := rfl

@[simp] theorem setRank_computed (s : Cluster L R) (r : ℕ) (st : RankState L R) :
    (setRank s r st).computed = s.computed := rfl

@[simp] theorem send_rank (src dst : ℕ) (m : Message L) (s : Cluster L R) :
    (send src dst m s).rank = s.rank := rfl

@[simp] theorem send_computed (src dst : ℕ) (m : Message L) (s : Cluster L R) :
    (send src dst m s).computed = s.computed := rfl

theorem send_net (src dst : ℕ) (m : Message L) (s : Cluster L R) (a b : ℕ) :
    (send src dst m s).net a b = if a = src ∧ b = dst then s.net a b ++ [m] else s.net a b := by
  by_cases ha : a = src <;> by_cases hb : b = dst <;> simp [send, ha, hb]

end Frame

/-! ## Keys of mds_load stay below `n` and channels stay between ranks -/

section Wf

variable {L R : Type} {n : ℕ}

/-- A rank's mds_load is sorted and names only in-ranks. -/
def RankWf (n : ℕ) (st : RankState L R) : Prop :=
  Sorted st.mdsLoad ∧ ∀ k ∈ keys st.mdsLoad, k < n

/-- Channels from or to a rank outside 0..n-1 are empty. -/
def NetInside (n : ℕ) (net : ℕ → ℕ → List (Message L)) : Prop :=
  ∀ a b, n ≤ a ∨ n ≤ b → net a b = []

structure Wf (n : ℕ) (s : Cluster L R) : Prop where
  ranks : ∀ r, RankWf n (s.rank r)
  net : NetInside n s.net

theorem rankWf_clear (st : RankState L R) (e : ℤ) :
    RankWf n ({ st with beatEpoch := e, mdsLoad := [] } : RankState L R) := by
  simp [RankWf, Sorted]

theorem rankWf_insert {st : RankState L R} (h : RankWf n st) {k : ℕ} (hk : k < n) (v : L) :
    RankWf n { st with mdsLoad := OrdMap.insert st.mdsLoad k v } := by
  refine ⟨h.1.insert k v, fun j hj => ?_⟩
  rcases (mem_keys_insert _ _ _ _).mp hj with rfl | hj
  · exact hk
  · exact h.2 j hj

theorem rankWf_set {st : RankState L R} (h : RankWf n st) {k : ℕ} (hk : k < n) (v : L) :
    RankWf n { st with mdsLoad := OrdMap.set st.mdsLoad k v } := by
  refine ⟨h.1.set k v, fun j hj => ?_⟩
  rcases (mem_keys_set _ _ _ _).mp hj with rfl | hj
  · exact hk
  · exact h.2 j hj

theorem wf_setRank {s : Cluster L R} (h : Wf n s) (r : ℕ) {st : RankState L R}
    (hst : RankWf n st) : Wf n (setRank s r st) := by
  refine ⟨fun q => ?_, h.net⟩
  rw [setRank_rank]
  split_ifs
  · exact hst
  · exact h.ranks q

theorem wf_send {s : Cluster L R} (h : Wf n s) {src dst : ℕ} (hsrc : src < n) (hdst : dst < n)
    (m : Message L) : Wf n (send src dst m s) := by
  refine ⟨h.ranks, fun a b hab => ?_⟩
  have hne : ¬ (a = src ∧ b = dst) := by omega
  rw [send_net, if_neg hne]
  exact h.net a b hab

private theorem wf_foldl_send {s : Cluster L R} (h : Wf n s) {whoami : ℕ} (hw : whoami < n)
    (m : Message L) (ps : List ℕ) (hps : ∀ p ∈ ps, p < n) :
    Wf n (ps.foldl (fun s p => if p = whoami then s else send whoami p m s) s) := by
  induction ps generalizing s with
  | nil => exact h
  | cons p ps ih =>
    simp only [List.foldl_cons]
    apply ih _ (fun q hq => hps q (by simp [hq]))
    split_ifs
    · exact h
    · exact wf_send h hw (hps p (by simp)) m

theorem wf_sendToOthers {s : Cluster L R} (h : Wf n s) {whoami : ℕ} (hw : whoami < n)
    (m : Message L) : Wf n (sendToOthers n whoami m s) :=
  wf_foldl_send h hw m (List.range n) (fun _ hp => List.mem_range.mp hp)

theorem wf_sendHeartbeat {s : Cluster L R} (h : Wf n s) {whoami : ℕ} (hw : whoami < n)
    (load : L) : Wf n (sendHeartbeat n whoami load s) := by
  unfold sendHeartbeat
  apply wf_sendToOthers _ hw
  apply wf_setRank h whoami
  apply rankWf_insert _ hw
  split_ifs
  · exact rankWf_clear _ _
  · exact h.ranks whoami

theorem wf_sendIfbeat {s : Cluster L R} (h : Wf n s) {whoami : ℕ} (hw : whoami < n)
    (load : L) : Wf n (sendIfbeat whoami load s) :=
  wf_send h hw (by omega) _

theorem wf_handleHeartbeat {s : Cluster L R} (h : Wf n s) {whoami who : ℕ} (hw : whoami < n)
    (hwho : who < n) (load : L) (beat : ℤ) (hbLoad ifLoad : L) :
    Wf n (handleHeartbeat n whoami who load beat hbLoad ifLoad s) := by
  unfold handleHeartbeat
  have h₁ : Wf n (if whoami ≠ 0 ∧ beat > (s.rank whoami).beatEpoch then
      setRank s whoami { s.rank whoami with beatEpoch := beat, mdsLoad := [] } else s) := by
    split_ifs
    · exact wf_setRank h whoami (rankWf_clear _ _)
    · exact h
  generalize (if whoami ≠ 0 ∧ beat > (s.rank whoami).beatEpoch then
      setRank s whoami { s.rank whoami with beatEpoch := beat, mdsLoad := [] } else s) = s₁ at h₁
  have h₂ : ∀ s₂ : Cluster L R, Wf n s₂ → Wf n (setRank s₂ whoami
      { s₂.rank whoami with mdsLoad := OrdMap.set (s₂.rank whoami).mdsLoad who load }) :=
    fun s₂ hs₂ => wf_setRank hs₂ whoami (rankWf_set (hs₂.ranks whoami) hwho load)
  split_ifs
  · apply h₂
    apply wf_sendIfbeat _ hw
    apply wf_sendHeartbeat _ hw
    apply wf_setRank h₁ whoami
    have hst := h₁.ranks whoami
    split_ifs
    · simp [RankWf, Sorted]
    · exact ⟨hst.1, hst.2⟩
  · exact h₂ s₁ h₁

theorem wf_handleIfbeat {s s' : Cluster L R} (h : Wf n s) (reqRate : L → R) (whoami : ℕ)
    {who : ℕ} (hwho : who < n) (load : L) (beat : ℤ)
    (hs' : handleIfbeat n reqRate whoami who load beat s = some s') : Wf n s' := by
  unfold handleIfbeat at hs'
  dsimp only at hs'
  have hst := rankWf_insert (h.ranks 0) hwho load
  split_ifs at hs'
  · cases hs'
    exact h
  · split at hs'
    · cases hs'
    · rename_i loads _
      cases hs'
      have hst' : RankWf n ({ (s.rank 0) with
          mdsLoad := OrdMap.insert (s.rank 0).mdsLoad who load,
          oldReq := updateOldReq reqRate (s.rank 0).oldReq loads } : RankState L R) := hst
      have hwf := wf_setRank h 0 hst'
      exact ⟨hwf.ranks, hwf.net⟩
  · cases hs'
    exact wf_setRank h 0 hst
  · cases hs'
    exact h

/-- Once mds_load holds num_in loads, every in-rank has one: the assert of
handle_ifbeat that looks each rank up never fires. -/
theorem handleIfbeat_isSome {s : Cluster L R} (h : Wf n s) (reqRate : L → R) (whoami : ℕ)
    {who : ℕ} (hwho : who < n) (load : L) (beat : ℤ) :
    (handleIfbeat n reqRate whoami who load beat s).isSome := by
  unfold handleIfbeat
  dsimp only
  split_ifs with h0 hb hlen
  · rfl
  · have hwf := rankWf_insert (h.ranks 0) hwho load
    have hall := mem_keys_of_length hwf.1.nodup hwf.2 hlen.symm
    have hvec : (loadVector n (OrdMap.insert (s.rank 0).mdsLoad who load)).isSome :=
      mapM_find?_isSome _ (List.range n) (fun i hi => hall i (List.mem_range.mp hi))
    obtain ⟨loads, hl⟩ := Option.isSome_iff_exists.mp hvec
    simp only [hl]
    rfl
  · rfl
  · rfl

theorem wf_init : Wf n (Cluster.init : Cluster L R) :=
  ⟨fun _ => by simp [Cluster.init, RankWf, Sorted], fun _ _ _ => rfl⟩

/-- A message in flight joins two in-ranks. -/
theorem lt_of_net_ne_nil {s : Cluster L R} (h : Wf n s) {src dst : ℕ} (hne : s.net src dst ≠ []) :
    src < n ∧ dst < n := by
  by_contra hout
  exact hne (h.net src dst (by omega))

theorem wf_pop {s : Cluster L R} (h : Wf n s) {src dst : ℕ} (hsrc : src < n) (hdst : dst < n)
    (rest : List (Message L)) :
    Wf n { s with net := Function.update s.net src (Function.update (s.net src) dst rest) } := by
  refine ⟨h.ranks, fun a b hab => ?_⟩
  have hne : ¬ (a = src ∧ b = dst) := by omega
  by_cases ha : a = src
  · subst ha
    have hb : b ≠ dst := fun hb => hne ⟨rfl, hb⟩
    simpa [hb] using h.net a b hab
  · simpa [ha] using h.net a b hab

theorem wf_exec (hn : 0 < n) (reqRate : L → R) {s s' : Cluster L R} (h : Wf n s) {e : Event L}
    (he : exec n reqRate s e = some s') : Wf n s' := by
  cases e with
  | tick load =>
    cases he
    exact wf_sendHeartbeat h hn load
  | deliver src dst hbLoad ifLoad =>
    cases hq : s.net src dst with
    | nil => simp [exec, hq] at he
    | cons m rest =>
      have hne : s.net src dst ≠ [] := by simp [hq]
      obtain ⟨hsrc, hdst⟩ := lt_of_net_ne_nil h hne
      have hpop := wf_pop h hsrc hdst rest
      simp only [exec, hq] at he
      cases m with
      | heartbeat load beat =>
        cases he
        exact wf_handleHeartbeat hpop hdst hsrc load beat hbLoad ifLoad
      | ifbeat load beat => exact wf_handleIfbeat hpop reqRate dst hsrc load beat he

theorem wf_reachable (hn : 0 < n) (reqRate : L → R) {s : Cluster L R}
    (hr : Reachable (exec n reqRate) Cluster.init s) : Wf n s :=
  hr.invariant wf_init (fun _ _ _ hs he => wf_exec hn reqRate hs he)

end Wf

/-! ## The computations of an epoch -/

section Epochs

variable {L R : Type}

/-- Each computation for epoch `e` read, for every rank `r`, a load that `r` sent in a
message stamped with `e`. -/
def ReadsEpochLoads (s : Cluster L R) : Prop :=
  ∀ e loads, (e, loads) ∈ s.computed → ∀ r (hr : r < loads.length),
    ∃ m, (r, m) ∈ s.sent ∧ m.beat = e ∧ m.load = loads[r]

/-- No epoch has two computations. -/
def ComputesOnce (s : Cluster L R) : Prop := (s.computed.map Prod.fst).Nodup

/-- Three ranks. Rank r reports 100e + 10r + 1 in its MHeartbeat of epoch e and
100e + 10r + 2 in its MIFBeat. Rank 1's epoch-1 messages reach mds0 after the tick
of epoch 2; rank 2 answers both epochs before rank 1 answers epoch 2. -/
def staleHeartbeatTrace : List (Event ℕ) :=
  [.tick 101, .deliver 0 1 111 112, .tick 201, .deliver 1 0 0 0, .deliver 1 0 0 0,
   .deliver 0 2 121 122, .deliver 0 2 221 222, .deliver 2 0 0 0, .deliver 2 0 0 0,
   .deliver 2 0 0 0, .deliver 2 0 0 0, .deliver 0 1 211 212, .deliver 1 0 0 0,
   .deliver 1 0 0 0]

/-- mds0 computes epoch 2 twice, the first time with rank 1's epoch-1 load 111,
which rank 1 never sent stamped with epoch 2. -/
theorem staleHeartbeat_computes_twice :
    ∃ s, run (exec 3 id) Cluster.init staleHeartbeatTrace = some s ∧
      ¬ ReadsEpochLoads s ∧ ¬ ComputesOnce s := by
  have hrun : (run (exec 3 id) (Cluster.init : Cluster ℕ ℕ) staleHeartbeatTrace).map
      (fun s => (s.computed, decide (∀ p ∈ s.sent, p.1 = 1 → p.2.beat = 2 → p.2.load ≠ 111))) =
      some ([(2, [201, 111, 221]), (2, [201, 211, 221])], true) := by
    decide
  obtain ⟨s, hs, hobs⟩ := Option.map_eq_some_iff.mp hrun
  simp only [Prod.mk.injEq, decide_eq_true_eq] at hobs
  obtain ⟨hcomputed, hsent⟩ := hobs
  refine ⟨s, hs, fun h => ?_, ?_⟩
  · obtain ⟨m, hm, hbeat, hload⟩ := h 2 [201, 111, 221] (by simp [hcomputed]) 1 (by decide)
    exact hsent (1, m) hm rfl hbeat hload
  · rw [ComputesOnce, hcomputed]
    decide

end Epochs

end Lunule.Balancer
