import Mathlib.Algebra.Group.Nat.Defs
import Mathlib.Data.List.TakeWhile
import Lunule.Bits
import Lunule.Runs

/-!
Capability revocation tracking (mds/Capability.h). The MDS numbers every cap
message it sends with last_sent; issue records a revocation with the caps pending
before it, confirm_receipt forgets revocations the client has acknowledged, and
clean_revoke_from drops those a racing release has made moot. issued() is meant to
bound what the client may still hold. The client here is the honest one: it
handles the cap messages in order, holds after each exactly the caps it grants,
drops bits only of its own accord, and acknowledges with the seq of the last
message it handled and the caps it holds; acknowledgements arrive in order.
ceph_seq_t is a 32-bit counter and the cap masks are 32 bits wide.
-/

namespace Lunule.Caps

open Bits Runs

/-- Capability::revoke_info: the caps pending before a revocation, the last_sent
and the last_issue at the time. -/
structure RevokeInfo where
  before : BitVec 32
  seq : UInt32
  lastIssue : UInt32
  deriving DecidableEq, Repr

/-- The fields of Capability that the revocation code reads and writes; `revoking`
says whether the cap is linked on the MDS's revoking lists. -/
structure Capability where
  pending : BitVec 32
  issued : BitVec 32
  revokes : List RevokeInfo
  lastSent : UInt32
  lastIssue : UInt32
  revoking : Bool
  deriving DecidableEq, Repr

namespace Capability

def init : Capability := ⟨0, 0, [], 0, 0, false⟩

/-- Capability::_calc_issued: pending together with every revocation's before-set. -/
def calcIssued (pending : BitVec 32) (revokes : List RevokeInfo) : BitVec 32 :=
  revokes.foldl (fun acc r => acc ||| r.before) pending

/-- The pop_back loop of issue: revocations at the back whose before-set has no bit
outside the new pending are dropped. -/
def dropCovered (pending : BitVec 32) (revokes : List RevokeInfo) : List RevokeInfo :=
  (revokes.reverse.dropWhile (fun r => r.before &&& ~~~pending == 0)).reverse

/-- Capability::issue; returns the new last_sent, the seq of the message that carries
the new pending to the client. -/
def issue (cap : Capability) (c : BitVec 32) : Capability × UInt32 :=
  let cap :=
    if cap.pending &&& ~~~c ≠ 0 then
      -- revoking (and maybe adding) bits: note the caps prior to this revocation
      { cap with revokes := cap.revokes ++ [⟨cap.pending, cap.lastSent, cap.lastIssue⟩],
                 pending := c, issued := cap.issued ||| c }
    else if ~~~cap.pending &&& c ≠ 0 then
      { cap with pending := cap.pending ||| c, issued := cap.issued ||| c,
                 revokes := dropCovered (cap.pending ||| c) cap.revokes }
    else cap
  ({ cap with lastSent := cap.lastSent + 1 }, cap.lastSent + 1)

/-- Capability::issue_norevoke. -/
def issueNorevoke (cap : Capability) (c : BitVec 32) : Capability × UInt32 :=
  ({ cap with pending := cap.pending ||| c, issued := cap.issued ||| c,
              lastSent := cap.lastSent + 1 }, cap.lastSent + 1)

/-- The unlink from the revoking lists that ends confirm_receipt and clean_revoke_from. -/
def unlinkIfSettled (cap : Capability) : Capability :=
  if cap.issued = cap.pending then { cap with revoking := false } else cap

/-- Capability::confirm_receipt. -/
def confirmReceipt (cap : Capability) (seq : UInt32) (caps : BitVec 32) : Capability :=
  unlinkIfSettled <|
    if seq = cap.lastSent then
      { cap with revokes := [], issued := caps, pending := cap.pending &&& caps }
    else
      match cap.revokes.dropWhile (fun r => r.seq < seq) with
      | [] => { cap with revokes := [], issued := caps ||| cap.pending }
      | r :: rest =>
        let revokes := if r.seq = seq then { r with before := caps } :: rest else r :: rest
        { cap with revokes, issued := calcIssued cap.pending revokes }

/-- Capability::clean_revoke_from. -/
def cleanRevokeFrom (cap : Capability) (li : UInt32) : Capability :=
  let revokes := cap.revokes.dropWhile (fun r => r.lastIssue ≤ li)
  if revokes.length < cap.revokes.length then
    unlinkIfSettled { cap with revokes, issued := calcIssued cap.pending revokes }
  else cap

/-- Capability::set_last_issue. -/
def setLastIssue (cap : Capability) : Capability := { cap with lastIssue := cap.lastSent }

end Capability

/-- The client's view of the cap: the seq of the last message it handled and the
caps it holds. -/
structure Client where
  seq : UInt32
  held : BitVec 32
  deriving DecidableEq, Repr

/-- The cap at the MDS, the cap messages on their way to the client as (seq, caps
granted), the client, and its acknowledgements on their way back as (seq, caps held). -/
structure World where
  cap : Capability
  toClient : List (UInt32 × BitVec 32)
  client : Client
  toMds : List (UInt32 × BitVec 32)
  deriving DecidableEq, Repr

inductive Event where
  | issue (c : BitVec 32)
  | issueNorevoke (c : BitVec 32)
  | confirm
  | cleanRevokeFrom (li : UInt32)
  | setLastIssue
  | markRevoking
  | clientHandle
  | clientDrop (d : BitVec 32)
  | clientAck
  deriving DecidableEq, Repr

/-- The events that send a cap message and so advance last_sent. -/
def Event.sends : Event → Bool
  | .issue _ | .issueNorevoke _ => true
  | _ => false

def Event.cleans : Event → Bool
  | .cleanRevokeFrom _ => true
  | _ => false

namespace World

def init : World := ⟨Capability.init, [], ⟨0, 0⟩, []⟩

/-- A message of the MDS carries its seq and the new pending. -/
def sendCap (w : World) (r : Capability × UInt32) : World :=
  { w with cap := r.1, toClient := w.toClient ++ [(r.2, r.1.pending)] }

def step (w : World) : Event → Option World
  | .issue c => some (w.sendCap (w.cap.issue c))
  | .issueNorevoke c => some (w.sendCap (w.cap.issueNorevoke c))
  | .confirm =>
    match w.toMds with
    | [] => none
    | (seq, caps) :: rest => some { w with cap := w.cap.confirmReceipt seq caps, toMds := rest }
  | .cleanRevokeFrom li => some { w with cap := w.cap.cleanRevokeFrom li }
  | .setLastIssue => some { w with cap := w.cap.setLastIssue }
  -- Locker links the cap on the revoking lists when it sends a revocation
  | .markRevoking => some { w with cap := { w.cap with revoking := true } }
  | .clientHandle =>
    match w.toClient with
    | [] => none
    | (seq, caps) :: rest => some { w with client := ⟨seq, caps⟩, toClient := rest }
  | .clientDrop d => some { w with client := { w.client with held := w.client.held &&& ~~~d } }
  | .clientAck => some { w with toMds := w.toMds ++ [(w.client.seq, w.client.held)] }

end World

/-! ## What issued() covers -/

namespace Capability

@[simp] theorem calcIssued_nil (p : BitVec 32) : calcIssued p [] = p := rfl

@[simp] theorem calcIssued_cons (p : BitVec 32) (r : RevokeInfo) (rs : List RevokeInfo) :
    calcIssued p (r :: rs) = calcIssued (p ||| r.before) rs := rfl

theorem getLsbD_calcIssued (p : BitVec 32) (rs : List RevokeInfo) (i : ℕ) :
    (calcIssued p rs).getLsbD i = (p.getLsbD i || rs.any fun r => r.before.getLsbD i) := by
  induction rs generalizing p with
  | nil => simp
  | cons r rs ih =>
    rw [calcIssued_cons, ih]
    simp only [BitVec.getLsbD_or, List.any_cons, Bool.or_assoc]

/-- A mask lies under issued() exactly when each of its bits is pending or in the
before-set of some revocation. -/
theorem sub_calcIssued_iff {x p : BitVec 32} {rs : List RevokeInfo} :
    Sub x (calcIssued p rs) ↔
      ∀ i, x.getLsbD i = true → p.getLsbD i = true ∨ ∃ r ∈ rs, r.before.getLsbD i = true := by
  simp only [sub_iff, getLsbD_calcIssued, Bool.or_eq_true, List.any_eq_true]

theorem pending_sub_calcIssued (p : BitVec 32) (rs : List RevokeInfo) : Sub p (calcIssued p rs) :=
  Iff.mpr sub_calcIssued_iff fun _ h => Or.inl h

theorem before_sub_calcIssued (p : BitVec 32) {rs : List RevokeInfo} {r : RevokeInfo}
    (hr : r ∈ rs) : Sub r.before (calcIssued p rs) :=
  Iff.mpr sub_calcIssued_iff fun _ h => Or.inr ⟨r, hr, h⟩

theorem calcIssued_sub {p x : BitVec 32} {rs : List RevokeInfo} (hp : Sub p x)
    (hrs : ∀ r ∈ rs, Sub r.before x) : Sub (calcIssued p rs) x := by
  refine sub_iff.mpr fun i h => ?_
  rw [getLsbD_calcIssued, Bool.or_eq_true, List.any_eq_true] at h
  rcases h with h | ⟨r, hr, h⟩
  · exact sub_iff.mp hp i h
  · exact sub_iff.mp (hrs r hr) i h

theorem calcIssued_append (p : BitVec 32) (rs : List RevokeInfo) (r : RevokeInfo) :
    calcIssued p (rs ++ [r]) = calcIssued p rs ||| r.before := by
  simp [calcIssued, List.foldl_append]

@[simp] theorem unlinkIfSettled_pending (cap : Capability) :
    (unlinkIfSettled cap).pending = cap.pending := by
  unfold unlinkIfSettled; split_ifs <;> rfl

@[simp] theorem unlinkIfSettled_issued (cap : Capability) :
    (unlinkIfSettled cap).issued = cap.issued := by
  unfold unlinkIfSettled; split_ifs <;> rfl

@[simp] theorem unlinkIfSettled_revokes (cap : Capability) :
    (unlinkIfSettled cap).revokes = cap.revokes := by
  unfold unlinkIfSettled; split_ifs <;> rfl

@[simp] theorem unlinkIfSettled_lastSent (cap : Capability) :
    (unlinkIfSettled cap).lastSent = cap.lastSent := by
  unfold unlinkIfSettled; split_ifs <;> rfl

end Capability

open Capability

/-- What issued() must keep covering for a client that has handled message `k`:
pending, and the before-sets of the revocations recorded at seq `k` or later. -/
def bound (cap : Capability) (k : UInt32) : BitVec 32 :=
  calcIssued cap.pending (cap.revokes.filter fun r => k ≤ r.seq)

theorem bound_sub_calcIssued (cap : Capability) (k : UInt32) :
    Sub (bound cap k) (calcIssued cap.pending cap.revokes) :=
  calcIssued_sub (pending_sub_calcIssued _ _)
    (fun _ hr => before_sub_calcIssued _ (List.mem_filter.mp hr).1)

/-- Seqs of a list kept in increasing order: dropping the entries below `a` from the
front is filtering them out. -/
theorem dropWhile_seq_lt {rs : List RevokeInfo} (hs : (rs.map RevokeInfo.seq).Pairwise (· < ·))
    (a : UInt32) : rs.dropWhile (fun r => r.seq < a) = rs.filter (fun r => a ≤ r.seq) := by
  induction rs with
  | nil => rfl
  | cons r rs ih =>
    simp only [List.map_cons, List.pairwise_cons, List.mem_map] at hs
    by_cases hr : r.seq < a
    · have hnot : ¬ a ≤ r.seq := by
        rw [UInt32.lt_iff_toNat_lt] at hr
        rw [UInt32.le_iff_toNat_le]
        omega
      simp [hr, hnot, ih hs.2]
    · have hle : a ≤ r.seq := by
        rw [UInt32.lt_iff_toNat_lt] at hr
        rw [UInt32.le_iff_toNat_le]
        omega
      have hall : ∀ q ∈ rs, a ≤ q.seq := by
        intro q hq
        have hlt := hs.1 q.seq ⟨q, hq, rfl⟩
        rw [UInt32.lt_iff_toNat_lt] at hlt
        rw [UInt32.le_iff_toNat_le] at hle ⊢
        omega
      have hfilter : rs.filter (fun q => a ≤ q.seq) = rs :=
        List.filter_eq_self.mpr (fun q hq => decide_eq_true (hall q hq))
      simp [hr, hle, hfilter]

theorem dropCovered_sublist (p : BitVec 32) (rs : List RevokeInfo) :
    (dropCovered p rs).Sublist rs := by
  have h : (rs.reverse.dropWhile fun r => r.before &&& ~~~p == 0).Sublist rs.reverse :=
    List.dropWhile_sublist _
  replace h := h.reverse
  simpa [dropCovered] using h

/-- A revocation that issue drops had no bit outside the new pending. -/
theorem mem_dropCovered (p : BitVec 32) {rs : List RevokeInfo} {r : RevokeInfo} (hr : r ∈ rs) :
    r ∈ dropCovered p rs ∨ Sub r.before p := by
  have hsplit : (rs.reverse.takeWhile fun r => r.before &&& ~~~p == 0) ++
      (rs.reverse.dropWhile fun r => r.before &&& ~~~p == 0) = rs.reverse :=
    List.takeWhile_append_dropWhile
  have hr' : r ∈ rs.reverse := List.mem_reverse.mpr hr
  rw [← hsplit, List.mem_append] at hr'
  rcases hr' with hr' | hr'
  · right
    have hpred := List.mem_takeWhile_imp hr'
    exact and_not_eq_zero_iff.mp (by simpa using hpred)
  · left
    simpa [dropCovered] using hr'

/-- The three branches of Capability::issue, as they change pending and the revocations. -/
theorem issue_cases (cap : Capability) (c : BitVec 32) :
    (cap.issue c).1 =
      { cap with lastSent := cap.lastSent + 1, pending := c, issued := cap.issued ||| c,
                 revokes := cap.revokes ++ [⟨cap.pending, cap.lastSent, cap.lastIssue⟩] } ∨
    (cap.issue c).1 =
      { cap with lastSent := cap.lastSent + 1, pending := cap.pending ||| c,
                 issued := cap.issued ||| c, revokes := dropCovered (cap.pending ||| c) cap.revokes } ∨
    (cap.issue c).1 = { cap with lastSent := cap.lastSent + 1 } := by
  unfold Capability.issue
  split_ifs
  · exact Or.inl rfl
  · exact Or.inr (Or.inl rfl)
  · exact Or.inr (Or.inr rfl)

/-- Replace the before-set of the revocation recorded at `seq`, as confirm_receipt does. -/
def setBefore (seq : UInt32) (caps : BitVec 32) (r : RevokeInfo) : RevokeInfo :=
  if r.seq = seq then { r with before := caps } else r

@[simp] theorem setBefore_seq (seq : UInt32) (caps : BitVec 32) (r : RevokeInfo) :
    (setBefore seq caps r).seq = r.seq := by
  unfold setBefore
  split_ifs <;> rfl

/-- Of a list with increasing seqs, only the first entry can carry the smallest seq. -/
private theorem map_setBefore_tail {r : RevokeInfo} {rest : List RevokeInfo} {seq : UInt32}
    (hs : ((r :: rest).map RevokeInfo.seq).Pairwise (· < ·)) (hr : seq ≤ r.seq) (caps : BitVec 32) :
    rest.map (setBefore seq caps) = rest := by
  have hgt : ∀ q ∈ rest, r.seq < q.seq := by
    simp only [List.map_cons, List.pairwise_cons, List.mem_map] at hs
    exact fun q hq => hs.1 q.seq ⟨q, hq, rfl⟩
  refine (List.map_congr_left fun q hq => ?_).trans (List.map_id rest)
  have hne : q.seq ≠ seq := by
    have h1 := hgt q hq
    rw [UInt32.lt_iff_toNat_lt] at h1
    rw [UInt32.le_iff_toNat_le] at hr
    intro heq
    rw [heq] at h1
    omega
  simp [setBefore, hne]

/-- confirm_receipt of an ack older than last_sent: the revocations before its seq go,
and the one recorded at its seq takes the acknowledged caps as before-set. -/
theorem confirmReceipt_revokes {cap : Capability} {seq : UInt32} (caps : BitVec 32)
    (hs : (cap.revokes.map RevokeInfo.seq).Pairwise (· < ·)) (hne : seq ≠ cap.lastSent) :
    (cap.confirmReceipt seq caps).revokes =
      (cap.revokes.filter fun r => seq ≤ r.seq).map (setBefore seq caps) := by
  unfold confirmReceipt
  rw [unlinkIfSettled_revokes, ← dropWhile_seq_lt hs]
  have hsub : ((cap.revokes.dropWhile fun r => r.seq < seq).map RevokeInfo.seq).Pairwise (· < ·) :=
    (hs.sublist ((List.dropWhile_sublist _).map _))
  cases hd : cap.revokes.dropWhile (fun r => r.seq < seq) with
  | nil => simp [hne]
  | cons r rest =>
    have hr : seq ≤ r.seq := by
      have hmem : r ∈ cap.revokes.dropWhile (fun r => r.seq < seq) := by simp [hd]
      rw [dropWhile_seq_lt hs] at hmem
      simpa using (List.mem_filter.mp hmem).2
    rw [hd] at hsub
    have htail := map_setBefore_tail hsub hr caps
    by_cases heq : r.seq = seq <;> simp [hne, setBefore, heq, htail]

/-- confirm_receipt of an ack older than last_sent recomputes issued() from pending and
the revocations it keeps, provided the acknowledged caps lie under the bound for
that seq (otherwise an emptied list would leave caps | pending). -/
theorem confirmReceipt_issued {cap : Capability} {seq : UInt32} {caps : BitVec 32}
    (hs : (cap.revokes.map RevokeInfo.seq).Pairwise (· < ·)) (hne : seq ≠ cap.lastSent)
    (hcov : Sub caps (bound cap seq)) :
    (cap.confirmReceipt seq caps).issued =
      calcIssued cap.pending (cap.confirmReceipt seq caps).revokes := by
  unfold confirmReceipt
  rw [unlinkIfSettled_issued, unlinkIfSettled_revokes]
  unfold bound at hcov
  rw [← dropWhile_seq_lt hs] at hcov
  cases hd : cap.revokes.dropWhile (fun r => r.seq < seq) with
  | nil =>
    rw [hd, calcIssued_nil] at hcov
    simp only [hne, if_false, calcIssued_nil]
    exact eq_of_sub_of_sub (or_sub hcov (sub_refl _)) (sub_or_right _ _)
  | cons r rest => simp [hne]

@[simp] theorem confirmReceipt_pending_of_ne {cap : Capability} {seq : UInt32} (caps : BitVec 32)
    (hne : seq ≠ cap.lastSent) : (cap.confirmReceipt seq caps).pending = cap.pending := by
  unfold confirmReceipt
  rw [unlinkIfSettled_pending]
  split
  · exact absurd ‹_› hne
  · split <;> rfl

@[simp] theorem confirmReceipt_lastSent (cap : Capability) (seq : UInt32) (caps : BitVec 32) :
    (cap.confirmReceipt seq caps).lastSent = cap.lastSent := by
  unfold confirmReceipt
  rw [unlinkIfSettled_lastSent]
  split
  · rfl
  · split <;> rfl

/-- Coverage under the bound for seq `k` survives the confirmation of an ack with seq
`a ≤ k`; at `k = a` the acknowledged caps replace the old before-set, so whatever is
covered there must lie under them. -/
theorem sub_bound_setBefore {p x caps : BitVec 32} {rs : List RevokeInfo} {a k : UInt32}
    (hak : a ≤ k) (hx : Sub x (calcIssued p (rs.filter fun r => k ≤ r.seq)))
    (hxa : k = a → Sub x caps) :
    Sub x (calcIssued p (((rs.filter fun r => a ≤ r.seq).map (setBefore a caps)).filter
      fun r => k ≤ r.seq)) := by
  refine Iff.mpr sub_calcIssued_iff fun i hi => ?_
  rcases Iff.mp sub_calcIssued_iff hx i hi with hp | ⟨r, hr, hbit⟩
  · exact Or.inl hp
  · right
    obtain ⟨hrs, hkr⟩ := List.mem_filter.mp hr
    have hkr' : k ≤ r.seq := by simpa using hkr
    have har : a ≤ r.seq := by
      rw [UInt32.le_iff_toNat_le] at hak hkr' ⊢
      omega
    refine ⟨setBefore a caps r, ?_, ?_⟩
    · simp only [List.mem_filter, List.mem_map, setBefore_seq]
      exact ⟨⟨r, ⟨hrs, by simpa using har⟩, rfl⟩, by simpa using hkr'⟩
    · by_cases heq : r.seq = a
      · have hka : k = a := by
          rw [UInt32.le_iff_toNat_le] at hak hkr'
          have := congrArg UInt32.toNat heq
          exact UInt32.toNat_inj.mp (by omega)
        simpa [setBefore, heq] using sub_iff.mp (hxa hka) i hi
      · simpa [setBefore, heq] using hbit

/-! ## Capability::issue keeps what it must -/

section Issue

variable {cap : Capability}

theorem issue_issued (c : BitVec 32) (h : cap.issued = calcIssued cap.pending cap.revokes) :
    (cap.issue c).1.issued = calcIssued (cap.issue c).1.pending (cap.issue c).1.revokes := by
  rcases issue_cases cap c with h1 | h1 | h1 <;> rw [h1]
  · apply BitVec.eq_of_getLsbD_eq
    intro i _
    simp only [h, calcIssued_append, BitVec.getLsbD_or, getLsbD_calcIssued]
    cases cap.pending.getLsbD i <;> cases c.getLsbD i <;> simp
  · rw [h]
    apply eq_of_sub_of_sub
    · apply or_sub _ (sub_trans (sub_or_right cap.pending c) (pending_sub_calcIssued _ _))
      apply calcIssued_sub (sub_trans (sub_or_left cap.pending c) (pending_sub_calcIssued _ _))
      intro r hr
      rcases mem_dropCovered (cap.pending ||| c) hr with hr' | hsub
      · exact before_sub_calcIssued _ hr'
      · exact sub_trans hsub (pending_sub_calcIssued _ _)
    · apply calcIssued_sub
      · exact or_sub (sub_or_of_sub_left (pending_sub_calcIssued _ _)) (sub_or_right _ _)
      · intro r hr
        exact sub_or_of_sub_left (before_sub_calcIssued _ ((dropCovered_sublist _ _).subset hr))
  · exact h

/-- What issued() owes to a message already sent stays owed after issue. -/
theorem bound_issue (c : BitVec 32) {k : UInt32} (hk : k ≤ cap.lastSent) :
    Sub (bound cap k) (bound (cap.issue c).1 k) := by
  unfold bound
  rcases issue_cases cap c with h1 | h1 | h1 <;> rw [h1]
  · apply calcIssued_sub
    · have hmem : (⟨cap.pending, cap.lastSent, cap.lastIssue⟩ : RevokeInfo) ∈
          (cap.revokes ++ [(⟨cap.pending, cap.lastSent, cap.lastIssue⟩ : RevokeInfo)]).filter
            fun r => k ≤ r.seq := by
        simp [hk]
      exact before_sub_calcIssued _ hmem
    · intro r hr
      apply before_sub_calcIssued
      obtain ⟨hrs, hkr⟩ := List.mem_filter.mp hr
      exact List.mem_filter.mpr ⟨List.mem_append_left _ hrs, hkr⟩
  · apply calcIssued_sub (sub_trans (sub_or_left cap.pending c) (pending_sub_calcIssued _ _))
    intro r hr
    obtain ⟨hrs, hkr⟩ := List.mem_filter.mp hr
    rcases mem_dropCovered (cap.pending ||| c) hrs with hr' | hsub
    · exact before_sub_calcIssued _ (List.mem_filter.mpr ⟨hr', hkr⟩)
    · exact sub_trans hsub (pending_sub_calcIssued _ _)
  · exact sub_refl _

theorem issue_sorted (c : BitVec 32) (hs : (cap.revokes.map RevokeInfo.seq).Pairwise (· < ·))
    (hlt : ∀ r ∈ cap.revokes, r.seq < cap.lastSent) :
    ((cap.issue c).1.revokes.map RevokeInfo.seq).Pairwise (· < ·) := by
  rcases issue_cases cap c with h1 | h1 | h1 <;> rw [h1]
  · simp only [List.map_append, List.map_cons, List.map_nil, List.pairwise_append,
      List.pairwise_singleton, List.mem_singleton, List.mem_map]
    refine ⟨hs, trivial, ?_⟩
    rintro _ ⟨r, hr, rfl⟩ _ rfl
    exact hlt r hr
  · exact hs.sublist ((dropCovered_sublist _ _).map _)
  · exact hs

theorem issue_seq_lt (c : BitVec 32) (hlt : ∀ r ∈ cap.revokes, r.seq < cap.lastSent)
    (hwrap : cap.lastSent.toNat + 1 < 2 ^ 32) :
    ∀ r ∈ (cap.issue c).1.revokes, r.seq < (cap.issue c).1.lastSent := by
  have hstep : cap.lastSent < cap.lastSent + 1 := by
    rw [UInt32.lt_iff_toNat_lt, UInt32.toNat_add]
    simp only [UInt32.toNat_one]
    omega
  have hold : ∀ r ∈ cap.revokes, r.seq < cap.lastSent + 1 := by
    intro r hr
    have h1 := hlt r hr
    rw [UInt32.lt_iff_toNat_lt] at h1 hstep ⊢
    omega
  rcases issue_cases cap c with h1 | h1 | h1 <;> rw [h1]
  · intro r hr
    rcases List.mem_append.mp hr with hr | hr
    · exact hold r hr
    · rw [List.mem_singleton.mp hr]
      exact hstep
  · exact fun r hr => hold r ((dropCovered_sublist _ _).subset hr)
  · exact hold

theorem issue_lastSent (c : BitVec 32) : (cap.issue c).1.lastSent = cap.lastSent + 1 := by
  rcases issue_cases cap c with h1 | h1 | h1 <;> rw [h1]

theorem issue_revoking (c : BitVec 32) : (cap.issue c).1.revoking = cap.revoking := by
  rcases issue_cases cap c with h1 | h1 | h1 <;> rw [h1]

theorem issue_snd (c : BitVec 32) : (cap.issue c).2 = (cap.issue c).1.lastSent := by
  rw [issue_lastSent]
  unfold Capability.issue
  split_ifs <;> rfl

theorem calcIssued_mono_pending {p p' : BitVec 32} (hp : Sub p p') (rs : List RevokeInfo) :
    Sub (calcIssued p rs) (calcIssued p' rs) :=
  calcIssued_sub (sub_trans hp (pending_sub_calcIssued _ _))
    (fun _ hr => before_sub_calcIssued _ hr)

theorem issueNorevoke_issued (c : BitVec 32)
    (h : cap.issued = calcIssued cap.pending cap.revokes) :
    (cap.issueNorevoke c).1.issued =
      calcIssued (cap.issueNorevoke c).1.pending (cap.issueNorevoke c).1.revokes := by
  apply BitVec.eq_of_getLsbD_eq
  intro i _
  simp only [Capability.issueNorevoke, h, BitVec.getLsbD_or, getLsbD_calcIssued]
  cases cap.pending.getLsbD i <;> cases c.getLsbD i <;> simp

/-- No revocation at or after `k`: the bound for `k` is pending alone. -/
theorem bound_of_seq_lt {k : UInt32} (hlt : ∀ r ∈ cap.revokes, r.seq < k) :
    bound cap k = cap.pending := by
  have hnil : (cap.revokes.filter fun r => k ≤ r.seq) = [] := by
    apply List.filter_eq_nil_iff.mpr
    intro r hr hk
    have h1 := hlt r hr
    have h2 : k ≤ r.seq := by simpa using hk
    rw [UInt32.lt_iff_toNat_lt] at h1
    rw [UInt32.le_iff_toNat_le] at h2
    omega
  simp [bound, hnil]

end Issue

/-! ## What every run keeps -/

/-- last_sent moves up by one as long as it does not wrap. -/
theorem seq_toNat_succ {x : UInt32} (hwrap : x.toNat + 1 < 2 ^ 32) : (x + 1).toNat = x.toNat + 1 := by
  rw [UInt32.toNat_add, UInt32.toNat_one]
  omega

theorem seq_lt_succ {x : UInt32} (hwrap : x.toNat + 1 < 2 ^ 32) : x < x + 1 := by
  rw [UInt32.lt_iff_toNat_lt, seq_toNat_succ hwrap]
  omega

namespace Capability

@[simp] theorem cleanRevokeFrom_lastSent (cap : Capability) (li : UInt32) :
    (cap.cleanRevokeFrom li).lastSent = cap.lastSent := by
  unfold cleanRevokeFrom
  dsimp only
  split_ifs <;> simp

/-- The revocations clean_revoke_from keeps are a suffix of the old ones. -/
theorem cleanRevokeFrom_revokes_sublist (cap : Capability) (li : UInt32) :
    (cap.cleanRevokeFrom li).revokes.Sublist cap.revokes := by
  unfold cleanRevokeFrom
  dsimp only
  split_ifs
  · simpa using List.dropWhile_sublist _
  · exact List.Sublist.refl _

/-- The unlink at the end of confirm_receipt and clean_revoke_from fires only on a
settled cap. -/
theorem unlinkIfSettled_settled {cap : Capability} (hr : cap.revoking = true)
    (hr' : (unlinkIfSettled cap).revoking = false) :
    (unlinkIfSettled cap).issued = (unlinkIfSettled cap).pending := by
  unfold unlinkIfSettled at hr' ⊢
  split_ifs at hr' ⊢ with hs
  · exact hs
  · rw [hr] at hr'
    cases hr'

theorem confirmReceipt_settled {cap : Capability} (seq : UInt32) (caps : BitVec 32)
    (hr : cap.revoking = true) (hr' : (cap.confirmReceipt seq caps).revoking = false) :
    (cap.confirmReceipt seq caps).issued = (cap.confirmReceipt seq caps).pending := by
  unfold confirmReceipt at hr' ⊢
  apply unlinkIfSettled_settled _ hr'
  split
  · exact hr
  · split <;> exact hr

theorem cleanRevokeFrom_settled {cap : Capability} (li : UInt32) (hr : cap.revoking = true)
    (hr' : (cap.cleanRevokeFrom li).revoking = false) :
    (cap.cleanRevokeFrom li).issued = (cap.cleanRevokeFrom li).pending := by
  unfold cleanRevokeFrom at hr' ⊢
  dsimp only at hr' ⊢
  split_ifs at hr' ⊢
  · exact unlinkIfSettled_settled hr hr'
  · rw [hr] at hr'
    cases hr'

/-- confirm_receipt leaves pending under issued whatever caps the ack carries. -/
theorem confirmReceipt_pending_sub (cap : Capability) (seq : UInt32) (caps : BitVec 32) :
    Sub (cap.confirmReceipt seq caps).pending (cap.confirmReceipt seq caps).issued := by
  unfold confirmReceipt
  rw [unlinkIfSettled_pending, unlinkIfSettled_issued]
  split
  · exact and_sub_right _ _
  · split
    · exact sub_or_right _ _
    · exact pending_sub_calcIssued _ _

end Capability

/-- What the cap keeps on every run, clean_revoke_from included: pending under
issued, and the revocations in increasing seq order, each before last_sent. -/
structure RepInv (cap : Capability) : Prop where
  pending_sub : Sub cap.pending cap.issued
  sorted : (cap.revokes.map RevokeInfo.seq).Pairwise (· < ·)
  seq_lt : ∀ r ∈ cap.revokes, r.seq < cap.lastSent

section RepInv

variable {cap : Capability}

theorem RepInv.issue (h : RepInv cap) (c : BitVec 32) (hwrap : cap.lastSent.toNat + 1 < 2 ^ 32) :
    RepInv (cap.issue c).1 := by
  refine ⟨?_, issue_sorted c h.sorted h.seq_lt, issue_seq_lt c h.seq_lt hwrap⟩
  rcases issue_cases cap c with h1 | h1 | h1 <;> rw [h1]
  · exact sub_or_right _ _
  · exact or_sub (sub_or_of_sub_left h.pending_sub) (sub_or_right _ _)
  · exact h.pending_sub

theorem RepInv.issueNorevoke (h : RepInv cap) (c : BitVec 32)
    (hwrap : cap.lastSent.toNat + 1 < 2 ^ 32) : RepInv (cap.issueNorevoke c).1 := by
  have hstep := seq_lt_succ hwrap
  refine ⟨or_sub (sub_or_of_sub_left h.pending_sub) (sub_or_right _ _), h.sorted, ?_⟩
  intro r hr
  have h1 := h.seq_lt r hr
  show r.seq < cap.lastSent + 1
  rw [UInt32.lt_iff_toNat_lt] at h1 hstep ⊢
  omega

theorem RepInv.confirmReceipt (h : RepInv cap) (seq : UInt32) (caps : BitVec 32) :
    RepInv (cap.confirmReceipt seq caps) := by
  refine ⟨confirmReceipt_pending_sub cap seq caps, ?_, ?_⟩
  all_goals by_cases heq : seq = cap.lastSent
  · simp [Capability.confirmReceipt, heq]
  · rw [confirmReceipt_revokes caps h.sorted heq, List.map_map]
    have hseqs : (RevokeInfo.seq ∘ setBefore seq caps) = RevokeInfo.seq := by
      funext r
      simp
    rw [hseqs]
    exact h.sorted.sublist (List.filter_sublist.map _)
  · simp [Capability.confirmReceipt, heq]
  · intro r hr
    rw [confirmReceipt_revokes caps h.sorted heq] at hr
    obtain ⟨r', hr', rfl⟩ := List.mem_map.mp hr
    simpa using h.seq_lt r' (List.mem_filter.mp hr').1

theorem RepInv.cleanRevokeFrom (h : RepInv cap) (li : UInt32) :
    RepInv (cap.cleanRevokeFrom li) := by
  have hsub := cleanRevokeFrom_revokes_sublist cap li
  refine ⟨?_, h.sorted.sublist (hsub.map _), ?_⟩
  · unfold Capability.cleanRevokeFrom
    dsimp only
    split_ifs
    · simpa using pending_sub_calcIssued _ _
    · exact h.pending_sub
  · intro r hr
    rw [cleanRevokeFrom_lastSent]
    exact h.seq_lt r (hsub.subset hr)

end RepInv

/-! ## The honest client stays under issued() -/

/-- Among the client's acknowledgements, followed by its present state, seqs do not
decrease, and at equal seqs the later one holds no more caps. -/
def AckOrder (x y : UInt32 × BitVec 32) : Prop := x.1 ≤ y.1 ∧ (x.1 = y.1 → Sub y.2 x.2)

theorem ackOrder_of_lt {x y : UInt32 × BitVec 32} (h : x.1 < y.1) : AckOrder x y := by
  rw [UInt32.lt_iff_toNat_lt] at h
  refine ⟨by rw [UInt32.le_iff_toNat_le]; omega, fun he => ?_⟩
  rw [he] at h
  omega

namespace World

/-- The acks in flight, the client's caps, and the cap messages in flight, each with
the seq it belongs to. -/
def obligations (w : World) : List (UInt32 × BitVec 32) :=
  w.toMds ++ (w.client.seq, w.client.held) :: w.toClient

/-- The invariant of the cap and its honest client while no clean_revoke_from runs. -/
structure Inv (w : World) : Prop where
  issued : w.cap.issued = calcIssued w.cap.pending w.cap.revokes
  sorted : (w.cap.revokes.map RevokeInfo.seq).Pairwise (· < ·)
  seq_lt : ∀ r ∈ w.cap.revokes, r.seq < w.cap.lastSent
  acks : (w.toMds ++ [(w.client.seq, w.client.held)]).Pairwise AckOrder
  msgs : (((w.client.seq, w.client.held) :: w.toClient).map Prod.fst).Pairwise (· < ·)
  msgs_le : ∀ m ∈ (w.client.seq, w.client.held) :: w.toClient, m.1 ≤ w.cap.lastSent
  covered : ∀ o ∈ w.obligations, Sub o.2 (bound w.cap o.1)

theorem inv_init : Inv init where
  issued := rfl
  sorted := List.Pairwise.nil
  seq_lt := by simp [init, Capability.init]
  acks := by simp [init]
  msgs := by simp [init]
  msgs_le := by simp [init, Capability.init]
  covered := by
    intro o ho
    simp only [init, obligations, List.nil_append, List.mem_singleton] at ho
    subst ho
    exact zero_sub _

@[simp] theorem sendCap_cap (w : World) (r : Capability × UInt32) : (w.sendCap r).cap = r.1 := rfl

@[simp] theorem sendCap_client (w : World) (r : Capability × UInt32) :
    (w.sendCap r).client = w.client := rfl

@[simp] theorem sendCap_toMds (w : World) (r : Capability × UInt32) :
    (w.sendCap r).toMds = w.toMds := rfl

@[simp] theorem sendCap_toClient (w : World) (r : Capability × UInt32) :
    (w.sendCap r).toClient = w.toClient ++ [(r.2, r.1.pending)] := rfl

variable {w : World}

/-- Every obligation belongs to a message already sent. -/
theorem Inv.obligation_le (h : Inv w) : ∀ o ∈ w.obligations, o.1 ≤ w.cap.lastSent := by
  intro o ho
  rcases List.mem_append.mp ho with ho | ho
  · have hord : AckOrder o (w.client.seq, w.client.held) :=
      (List.pairwise_append.mp h.acks).2.2 o ho _ (List.mem_singleton_self _)
    exact UInt32.le_trans hord.1 (h.msgs_le _ List.mem_cons_self)
  · exact h.msgs_le o ho

/-- A cap message with a fresh seq from a cap that still covers every earlier
obligation keeps the invariant. -/
theorem Inv.sendCap (h : Inv w) {cap' : Capability}
    (hissued : cap'.issued = calcIssued cap'.pending cap'.revokes)
    (hsorted : (cap'.revokes.map RevokeInfo.seq).Pairwise (· < ·))
    (hseq : ∀ r ∈ cap'.revokes, r.seq < cap'.lastSent) (hls : w.cap.lastSent < cap'.lastSent)
    (hbound : ∀ k, k ≤ w.cap.lastSent → Sub (bound w.cap k) (bound cap' k)) :
    Inv (w.sendCap (cap', cap'.lastSent)) := by
  have hlt : ∀ m ∈ (w.client.seq, w.client.held) :: w.toClient, m.1 < cap'.lastSent := by
    intro m hm
    have h1 := h.msgs_le m hm
    rw [UInt32.le_iff_toNat_le] at h1
    rw [UInt32.lt_iff_toNat_lt] at hls ⊢
    omega
  refine ⟨hissued, hsorted, hseq, by simpa using h.acks, ?_, ?_, ?_⟩
  · have hm := h.msgs
    simp only [List.map_cons] at hm
    simp only [sendCap_client, sendCap_toClient, List.map_append, List.map_cons, List.map_nil,
      ← List.cons_append, List.pairwise_append]
    refine ⟨hm, List.pairwise_singleton _ _, ?_⟩
    intro a ha b hb
    rw [List.mem_singleton.mp hb]
    rcases List.mem_cons.mp ha with rfl | ha
    · exact hlt _ List.mem_cons_self
    · obtain ⟨m, hm, rfl⟩ := List.mem_map.mp ha
      exact hlt m (List.mem_cons_of_mem _ hm)
  · intro m hm
    simp only [sendCap_client, sendCap_toClient, ← List.cons_append,
      List.mem_append, List.mem_singleton] at hm
    rcases hm with hm | rfl
    · exact UInt32.le_of_lt (hlt m hm)
    · exact UInt32.le_refl _
  · intro o ho
    simp only [obligations, sendCap_client, sendCap_toClient, sendCap_toMds,
      ← List.cons_append, ← List.append_assoc, List.mem_append, List.mem_singleton] at ho
    rcases ho with ho | rfl
    · have ho' : o ∈ w.obligations := by simpa [obligations] using ho
      exact sub_trans (h.covered o ho') (hbound o.1 (h.obligation_le o ho'))
    · exact pending_sub_calcIssued _ _

theorem Inv.issue (h : Inv w) (c : BitVec 32) (hwrap : w.cap.lastSent.toNat + 1 < 2 ^ 32) :
    Inv (w.sendCap (w.cap.issue c)) := by
  have hpair : w.cap.issue c = ((w.cap.issue c).1, (w.cap.issue c).1.lastSent) :=
    Prod.ext rfl (issue_snd c)
  rw [hpair]
  apply h.sendCap (issue_issued c h.issued) (issue_sorted c h.sorted h.seq_lt)
    (issue_seq_lt c h.seq_lt hwrap)
  · rw [issue_lastSent, UInt32.lt_iff_toNat_lt, UInt32.toNat_add, UInt32.toNat_one]
    omega
  · exact fun k hk => bound_issue c hk

theorem Inv.issueNorevoke (h : Inv w) (c : BitVec 32) (hwrap : w.cap.lastSent.toNat + 1 < 2 ^ 32) :
    Inv (w.sendCap (w.cap.issueNorevoke c)) := by
  have hstep : w.cap.lastSent < w.cap.lastSent + 1 := by
    rw [UInt32.lt_iff_toNat_lt, UInt32.toNat_add, UInt32.toNat_one]
    omega
  apply h.sendCap (issueNorevoke_issued c h.issued) h.sorted
  · intro r hr
    have h1 := h.seq_lt r hr
    show r.seq < w.cap.lastSent + 1
    rw [UInt32.lt_iff_toNat_lt] at h1 hstep ⊢
    omega
  · exact hstep
  · exact fun k _ => calcIssued_mono_pending (sub_or_left _ _) _

/-- What the invariant says about the ack at the head of the queue to the MDS: it comes before
every later ack and the client's own state, and every cap the MDS still owes is within its
bound. -/
theorem Inv.ackHead (h : Inv w) {seq : UInt32} {caps : BitVec 32} {rest : List (UInt32 × BitVec 32)}
    (hq : w.toMds = (seq, caps) :: rest) :
    (∀ o ∈ rest ++ [(w.client.seq, w.client.held)], AckOrder (seq, caps) o) ∧
      (rest ++ [(w.client.seq, w.client.held)]).Pairwise AckOrder ∧
      (∀ o ∈ rest ++ (w.client.seq, w.client.held) :: w.toClient,
        Sub o.2 (bound w.cap o.1)) ∧
      Sub caps (bound w.cap seq) ∧ seq ≤ w.client.seq := by
  have hacks := h.acks
  rw [hq, List.cons_append, List.pairwise_cons] at hacks
  obtain ⟨hfirst, hacks⟩ := hacks
  refine ⟨hfirst, hacks, fun o ho => ?_, h.covered (seq, caps) (by simp [obligations, hq]),
    (hfirst _ (List.mem_append_right _ (List.mem_singleton_self _))).1⟩
  exact h.covered o (by rw [obligations, hq, List.cons_append]; exact List.mem_cons_of_mem _ ho)

/-- Once the client has handled the latest message, no message is on its way to it. -/
theorem Inv.toClient_eq_nil (h : Inv w) (hcls : w.client.seq = w.cap.lastSent) :
    w.toClient = [] := by
  have hmsgs := h.msgs
  simp only [List.map_cons, List.pairwise_cons, List.mem_map] at hmsgs
  cases hm : w.toClient with
  | nil => rfl
  | cons m ms =>
    have h1 := hmsgs.1 m.1 ⟨m, by simp [hm], rfl⟩
    have h2 := h.msgs_le m (by simp [hm])
    rw [UInt32.lt_iff_toNat_lt] at h1
    rw [UInt32.le_iff_toNat_le] at h2
    rw [hcls] at h1
    omega

/-- An ack of the latest message at the head of the queue means the client has handled it. -/
theorem Inv.clientSeq_of_latest (h : Inv w) {seq : UInt32} {caps : BitVec 32}
    {rest : List (UInt32 × BitVec 32)} (hq : w.toMds = (seq, caps) :: rest)
    (heq : seq = w.cap.lastSent) : w.client.seq = w.cap.lastSent := by
  have hsc := (h.ackHead hq).2.2.2.2
  have hc : w.client.seq ≤ w.cap.lastSent := h.msgs_le _ List.mem_cons_self
  rw [UInt32.le_iff_toNat_le] at hsc hc
  exact UInt32.toNat_inj.mp (by rw [heq] at hsc; omega)

/-- Behind an ack of the latest message every ack, the client's own state included, is of that
message too: within the head's caps and within what is pending. -/
theorem Inv.later_of_latest (h : Inv w) {seq : UInt32} {caps : BitVec 32}
    {rest : List (UInt32 × BitVec 32)} (hq : w.toMds = (seq, caps) :: rest)
    (heq : seq = w.cap.lastSent) :
    ∀ o ∈ rest ++ [(w.client.seq, w.client.held)],
      o.1 = seq ∧ Sub o.2 caps ∧ Sub o.2 w.cap.pending := by
  obtain ⟨hfirst, hacks, hcov, -, -⟩ := h.ackHead hq
  have hcls := h.clientSeq_of_latest hq heq
  have hp : bound w.cap seq = w.cap.pending := bound_of_seq_lt (heq ▸ h.seq_lt)
  intro o ho
  have hord := hfirst o ho
  have hle : o.1 ≤ w.client.seq := by
    rcases List.mem_append.mp ho with ho | ho
    · exact ((List.pairwise_append.mp hacks).2.2 o ho _ (List.mem_singleton_self _)).1
    · rw [List.mem_singleton.mp ho]
      exact UInt32.le_refl _
  have hseq : o.1 = seq := by
    have h1 : seq ≤ o.1 := hord.1
    rw [UInt32.le_iff_toNat_le] at h1 hle
    rw [heq, ← hcls]
    exact UInt32.toNat_inj.mp (by rw [heq, ← hcls] at h1; omega)
  refine ⟨hseq, hord.2 hseq.symm, ?_⟩
  have ho' : o ∈ rest ++ (w.client.seq, w.client.held) :: w.toClient := by
    rcases List.mem_append.mp ho with ho | ho
    · exact List.mem_append_left _ ho
    · rw [List.mem_singleton.mp ho]
      exact List.mem_append_right _ List.mem_cons_self
  have := hcov o ho'
  rwa [hseq, hp] at this

/-- The ack of the latest message settles every revocation. -/
theorem Inv.confirm_latest (h : Inv w) {seq : UInt32} {caps : BitVec 32}
    {rest : List (UInt32 × BitVec 32)} (hq : w.toMds = (seq, caps) :: rest)
    (heq : seq = w.cap.lastSent) :
    Inv { w with cap := w.cap.confirmReceipt seq caps, toMds := rest } := by
  obtain ⟨-, hacks, -, hcaps, -⟩ := h.ackHead hq
  have hp : bound w.cap seq = w.cap.pending := bound_of_seq_lt (heq ▸ h.seq_lt)
  have hcapsP : Sub caps w.cap.pending := hp ▸ hcaps
  have hnew : w.cap.confirmReceipt seq caps = unlinkIfSettled
      { w.cap with revokes := [], issued := caps, pending := w.cap.pending &&& caps } := by
    simp [Capability.confirmReceipt, heq]
  have hnomsg := h.toClient_eq_nil (h.clientSeq_of_latest hq heq)
  refine ⟨?_, ?_, ?_, hacks, h.msgs, ?_, ?_⟩
  · rw [hnew, unlinkIfSettled_issued, unlinkIfSettled_pending, unlinkIfSettled_revokes,
      calcIssued_nil]
    exact eq_of_sub_of_sub (sub_and hcapsP (sub_refl _)) (and_sub_right _ _)
  · simp [hnew]
  · simp [hnew]
  · simpa using h.msgs_le
  · intro o ho
    simp only [obligations, hnomsg, List.mem_append, List.mem_singleton] at ho
    have ho' : o ∈ rest ++ [(w.client.seq, w.client.held)] := by
      rcases ho with ho | ho
      · exact List.mem_append_left _ ho
      · exact List.mem_append_right _ (by simpa using ho)
    obtain ⟨_, hocaps, hoP⟩ := h.later_of_latest hq heq o ho'
    simp only [bound, hnew, unlinkIfSettled_pending, unlinkIfSettled_revokes, List.filter_nil,
      calcIssued_nil]
    exact sub_and hoP hocaps

/-- The ack of an older message forgets the revocations before its seq. -/
theorem Inv.confirm_older (h : Inv w) {seq : UInt32} {caps : BitVec 32}
    {rest : List (UInt32 × BitVec 32)} (hq : w.toMds = (seq, caps) :: rest)
    (heq : seq ≠ w.cap.lastSent) :
    Inv { w with cap := w.cap.confirmReceipt seq caps, toMds := rest } := by
  obtain ⟨hfirst, hacks, hcov, hcaps, hsc⟩ := h.ackHead hq
  have hmsgs := h.msgs
  simp only [List.map_cons, List.pairwise_cons, List.mem_map] at hmsgs
  have hrev := confirmReceipt_revokes caps h.sorted heq
  have hiss := confirmReceipt_issued h.sorted heq hcaps
  have hpend := confirmReceipt_pending_of_ne caps heq
  refine ⟨hiss.trans (by rw [hpend]), ?_, ?_, hacks, h.msgs, ?_, ?_⟩
  · rw [hrev, List.map_map]
    have hseqs : (RevokeInfo.seq ∘ setBefore seq caps) = RevokeInfo.seq := by
      funext r
      simp
    rw [hseqs]
    exact h.sorted.sublist ((List.filter_sublist).map _)
  · intro r hr
    rw [hrev] at hr
    obtain ⟨r', hr', rfl⟩ := List.mem_map.mp hr
    simpa using h.seq_lt r' (List.mem_filter.mp hr').1
  · simpa using h.msgs_le
  · intro o ho
    simp only [obligations] at ho
    have hge : seq ≤ o.1 ∧ (o.1 = seq → Sub o.2 caps) := by
      rcases List.mem_append.mp ho with ho | ho
      · exact ⟨(hfirst o (List.mem_append_left _ ho)).1,
          fun he => (hfirst o (List.mem_append_left _ ho)).2 he.symm⟩
      · rcases List.mem_cons.mp ho with rfl | ho
        · exact ⟨hsc, fun he => (hfirst _ (List.mem_append_right _
            (List.mem_singleton_self _))).2 he.symm⟩
        · have h1 := hmsgs.1 o.1 ⟨o, ho, rfl⟩
          rw [UInt32.lt_iff_toNat_lt] at h1
          have hsc' := hsc
          rw [UInt32.le_iff_toNat_le] at hsc'
          refine ⟨by rw [UInt32.le_iff_toNat_le]; omega, fun he => ?_⟩
          rw [he] at h1
          omega
    have := sub_bound_setBefore hge.1 (hcov o ho) hge.2
    simpa [bound, hrev, hpend] using this

/-- confirm_receipt of the oldest ack keeps the invariant. -/
theorem Inv.confirm (h : Inv w) {seq : UInt32} {caps : BitVec 32} {rest : List (UInt32 × BitVec 32)}
    (hq : w.toMds = (seq, caps) :: rest) :
    Inv { w with cap := w.cap.confirmReceipt seq caps, toMds := rest } := by
  by_cases heq : seq = w.cap.lastSent
  · exact h.confirm_latest hq heq
  · exact h.confirm_older hq heq

theorem Inv.clientHandle (h : Inv w) {seq : UInt32} {caps : BitVec 32}
    {rest : List (UInt32 × BitVec 32)} (hq : w.toClient = (seq, caps) :: rest) :
    Inv { w with client := ⟨seq, caps⟩, toClient := rest } := by
  have hmsgs := h.msgs
  rw [hq] at hmsgs
  simp only [List.map_cons, List.pairwise_cons, List.mem_cons, List.mem_map] at hmsgs
  have hlt : w.client.seq < seq := hmsgs.1 seq (Or.inl rfl)
  refine ⟨h.issued, h.sorted, h.seq_lt, ?_, ?_, ?_, ?_⟩
  · have hacks := List.pairwise_append.mp h.acks
    refine List.pairwise_append.mpr ⟨hacks.1, List.pairwise_singleton _ _, ?_⟩
    intro x hx y hy
    rw [List.mem_singleton.mp hy]
    apply ackOrder_of_lt
    have hxc : x.1 ≤ w.client.seq := (hacks.2.2 x hx _ (List.mem_singleton_self _)).1
    show x.1 < seq
    rw [UInt32.le_iff_toNat_le] at hxc
    rw [UInt32.lt_iff_toNat_lt] at hlt ⊢
    omega
  · simpa using hmsgs.2
  · intro m hm
    exact h.msgs_le m (by rw [hq]; exact List.mem_cons_of_mem _ hm)
  · intro o ho
    refine h.covered o ?_
    simp only [obligations, hq] at ho ⊢
    exact ((List.sublist_cons_self _ _).append_left w.toMds).subset ho

theorem Inv.clientDrop (h : Inv w) (d : BitVec 32) :
    Inv { w with client := { w.client with held := w.client.held &&& ~~~d } } := by
  have hsub : Sub (w.client.held &&& ~~~d) w.client.held := and_sub_left _ _
  refine ⟨h.issued, h.sorted, h.seq_lt, ?_, h.msgs, ?_, ?_⟩
  · have hacks := List.pairwise_append.mp h.acks
    refine List.pairwise_append.mpr ⟨hacks.1, List.pairwise_singleton _ _, ?_⟩
    intro x hx y hy
    rw [List.mem_singleton.mp hy]
    have hord := hacks.2.2 x hx _ (List.mem_singleton_self _)
    exact ⟨hord.1, fun he => sub_trans hsub (hord.2 he)⟩
  · intro m hm
    rcases List.mem_cons.mp hm with rfl | hm
    · exact h.msgs_le (w.client.seq, w.client.held) List.mem_cons_self
    · exact h.msgs_le m (List.mem_cons_of_mem _ hm)
  · intro o ho
    simp only [obligations, List.mem_append, List.mem_cons] at ho
    rcases ho with ho | rfl | ho
    · exact h.covered o (by simp [obligations, ho])
    · exact sub_trans hsub (h.covered (w.client.seq, w.client.held) (by simp [obligations]))
    · exact h.covered o (by simp [obligations, ho])

theorem Inv.clientAck (h : Inv w) :
    Inv { w with toMds := w.toMds ++ [(w.client.seq, w.client.held)] } := by
  refine ⟨h.issued, h.sorted, h.seq_lt, ?_, h.msgs, h.msgs_le, ?_⟩
  · refine List.pairwise_append.mpr ⟨h.acks, List.pairwise_singleton _ _, ?_⟩
    intro x hx y hy
    rw [List.mem_singleton.mp hy]
    rcases List.mem_append.mp hx with hx | hx
    · exact (List.pairwise_append.mp h.acks).2.2 x hx _ (List.mem_singleton_self _)
    · rw [List.mem_singleton.mp hx]
      exact ⟨UInt32.le_refl _, fun _ => sub_refl _⟩
  · intro o ho
    simp only [obligations, List.mem_append, List.mem_singleton] at ho
    rcases ho with (ho | rfl) | ho
    · exact h.covered o (by simp [obligations, ho])
    · exact h.covered (w.client.seq, w.client.held) (by simp [obligations])
    · exact h.covered o (by simp [obligations, ho])

theorem Inv.toRepInv (h : Inv w) : RepInv w.cap :=
  ⟨h.issued ▸ pending_sub_calcIssued _ _, h.sorted, h.seq_lt⟩

/-- The client holds nothing outside issued(). -/
theorem Inv.held_sub_issued (h : Inv w) : Sub w.client.held w.cap.issued := by
  have hcov : Sub w.client.held (bound w.cap w.client.seq) :=
    h.covered (w.client.seq, w.client.held) (by simp [obligations])
  rw [h.issued]
  exact sub_trans hcov (bound_sub_calcIssued _ _)

variable {e : Event} {w' : World}

/-- The confirm event pops the oldest ack and hands it to confirm_receipt. -/
theorem step_confirm (hs : w.step .confirm = some w') :
    ∃ seq caps rest, w.toMds = (seq, caps) :: rest ∧
      w' = { w with cap := w.cap.confirmReceipt seq caps, toMds := rest } := by
  simp only [step] at hs
  cases hq : w.toMds with
  | nil => simp [hq] at hs
  | cons a rest =>
    obtain ⟨seq, caps⟩ := a
    simp only [hq, Option.some.injEq] at hs
    exact ⟨seq, caps, rest, rfl, hs.symm⟩

/-- The client handles the oldest cap message in flight. -/
theorem step_clientHandle (hs : w.step .clientHandle = some w') :
    ∃ seq caps rest, w.toClient = (seq, caps) :: rest ∧
      w' = { w with client := ⟨seq, caps⟩, toClient := rest } := by
  simp only [step] at hs
  cases hq : w.toClient with
  | nil => simp [hq] at hs
  | cons a rest =>
    obtain ⟨seq, caps⟩ := a
    simp only [hq, Option.some.injEq] at hs
    exact ⟨seq, caps, rest, rfl, hs.symm⟩

/-- Each step advances last_sent by one exactly when it sends a cap message. -/
theorem step_lastSent (hs : w.step e = some w')
    (hwrap : w.cap.lastSent.toNat + (if e.sends then 1 else 0) < 2 ^ 32) :
    w'.cap.lastSent.toNat = w.cap.lastSent.toNat + if e.sends then 1 else 0 := by
  cases e
  case confirm =>
    obtain ⟨seq, caps, rest, -, rfl⟩ := step_confirm hs
    simp [Event.sends]
  case clientHandle =>
    obtain ⟨seq, caps, rest, -, rfl⟩ := step_clientHandle hs
    simp [Event.sends]
  all_goals simp only [step, Option.some.injEq] at hs; subst hs
  case issue c =>
    simpa [Event.sends, issue_lastSent] using seq_toNat_succ (by simpa [Event.sends] using hwrap)
  case issueNorevoke c =>
    simpa [Event.sends, Capability.issueNorevoke] using
      seq_toNat_succ (by simpa [Event.sends] using hwrap)
  all_goals simp [Event.sends, Capability.setLastIssue]

/-- The cap's representation invariant survives every step. -/
theorem repInv_step (h : RepInv w.cap)
    (hwrap : w.cap.lastSent.toNat + (if e.sends then 1 else 0) < 2 ^ 32)
    (hs : w.step e = some w') : RepInv w'.cap := by
  cases e
  case confirm =>
    obtain ⟨seq, caps, rest, -, rfl⟩ := step_confirm hs
    exact h.confirmReceipt seq caps
  case clientHandle =>
    obtain ⟨seq, caps, rest, -, rfl⟩ := step_clientHandle hs
    exact h
  all_goals simp only [step, Option.some.injEq] at hs; subst hs
  case issue c => exact h.issue c (by simpa [Event.sends] using hwrap)
  case issueNorevoke c => exact h.issueNorevoke c (by simpa [Event.sends] using hwrap)
  case cleanRevokeFrom li => exact h.cleanRevokeFrom li
  all_goals exact ⟨h.pending_sub, h.sorted, h.seq_lt⟩

/-- The cap and its client keep the invariant through every step but
clean_revoke_from. -/
theorem Inv.step (h : Inv w) (hclean : e.cleans = false)
    (hwrap : w.cap.lastSent.toNat + (if e.sends then 1 else 0) < 2 ^ 32)
    (hs : w.step e = some w') : Inv w' := by
  cases e
  case confirm =>
    obtain ⟨seq, caps, rest, hq, rfl⟩ := step_confirm hs
    exact h.confirm hq
  case clientHandle =>
    obtain ⟨seq, caps, rest, hq, rfl⟩ := step_clientHandle hs
    exact h.clientHandle hq
  case cleanRevokeFrom li => cases hclean
  all_goals simp only [World.step, Option.some.injEq] at hs; subst hs
  case issue c => exact h.issue c (by simpa [Event.sends] using hwrap)
  case issueNorevoke c => exact h.issueNorevoke c (by simpa [Event.sends] using hwrap)
  case clientDrop d => exact h.clientDrop d
  case clientAck => exact h.clientAck
  all_goals exact ⟨h.issued, h.sorted, h.seq_lt, h.acks, h.msgs, h.msgs_le, h.covered⟩

/-- No step takes the cap off the revoking lists unless issued() equals pending(). -/
theorem step_unlink_settled (hs : w.step e = some w') (hr : w.cap.revoking = true)
    (hr' : w'.cap.revoking = false) : w'.cap.issued = w'.cap.pending := by
  cases e
  case confirm =>
    obtain ⟨seq, caps, rest, -, rfl⟩ := step_confirm hs
    exact confirmReceipt_settled seq caps hr hr'
  case clientHandle =>
    obtain ⟨seq, caps, rest, -, rfl⟩ := step_clientHandle hs
    exact absurd (hr.symm.trans hr') (by decide)
  all_goals simp only [step, Option.some.injEq] at hs; subst hs
  case cleanRevokeFrom li => exact cleanRevokeFrom_settled li hr hr'
  case issue c =>
    rw [sendCap_cap, issue_revoking, hr] at hr'
    cases hr'
  case markRevoking => cases hr'
  all_goals exact absurd (hr.symm.trans hr') (by decide)

/-! ## Whole runs -/

/-- Every run that sends fewer than 2^32 cap messages keeps the cap's representation
invariant. -/
theorem repInv_run {es : List Event} {w : World} (hrun : run step init es = some w)
    (hsends : es.countP Event.sends < 2 ^ 32) : RepInv w.cap := by
  have hstep : ∀ (s : World) (e : Event) (s' : World), RepInv s.cap → True →
      s.cap.lastSent.toNat + (if e.sends then 1 else 0) < 2 ^ 32 → s.step e = some s' →
      RepInv s'.cap ∧
        s'.cap.lastSent.toNat = s.cap.lastSent.toNat + if e.sends then 1 else 0 :=
    fun _ _ _ h _ hb hs => ⟨repInv_step h hb hs, step_lastSent hs hb⟩
  exact run_invariant_counted step (fun s => RepInv s.cap) (fun _ => True) Event.sends
    (fun s => s.cap.lastSent.toNat) (2 ^ 32) hstep es init w inv_init.toRepInv
    (fun _ _ => trivial) (by simpa [init, Capability.init] using hsends) hrun

/-- Every run without clean_revoke_from that sends fewer than 2^32 cap messages keeps
the invariant of the cap and its client. -/
theorem inv_run {es : List Event} {w : World} (hrun : run step init es = some w)
    (hclean : ∀ e ∈ es, e.cleans = false) (hsends : es.countP Event.sends < 2 ^ 32) : Inv w := by
  have hstep : ∀ (s : World) (e : Event) (s' : World), Inv s → e.cleans = false →
      s.cap.lastSent.toNat + (if e.sends then 1 else 0) < 2 ^ 32 → s.step e = some s' →
      Inv s' ∧ s'.cap.lastSent.toNat = s.cap.lastSent.toNat + if e.sends then 1 else 0 :=
    fun _ _ _ h hc hb hs => ⟨h.step hc hb hs, step_lastSent hs hb⟩
  exact run_invariant_counted step Inv (fun e => e.cleans = false) Event.sends
    (fun s => s.cap.lastSent.toNat) (2 ^ 32) hstep es init w inv_init hclean
    (by simpa [init, Capability.init] using hsends) hrun

/-- A cap that has revoked bit 0 at seq 1 and bit 2 at seq `s`; it grants bit 2 again
and revokes it again, one round after another. -/
def regrantCap (s : UInt32) : Capability :=
  ⟨2, 7, [⟨1, 1, 0⟩, ⟨6, s, 0⟩], s + 1, 0, false⟩

def regrantRounds (n : ℕ) : List Event := (List.replicate n [.issue 6, .issue 2]).flatten

theorem regrant_issue_grant (s : UInt32) :
    (regrantCap s).issue 6 = (⟨6, 7, [⟨1, 1, 0⟩], s + 1 + 1, 0, false⟩, s + 1 + 1) := by
  have h1 : (2 : BitVec 32) &&& ~~~6 = 0 := by decide
  have h2 : ~~~(2 : BitVec 32) &&& 6 ≠ 0 := by decide
  have h3 : ((6 : BitVec 32) &&& ~~~6 == 0) = true := by decide
  have h4 : ((1 : BitVec 32) &&& ~~~6 == 0) = false := by decide
  have h5 : (7 : BitVec 32) ||| 6 = 7 := by decide
  have h6 : (2 : BitVec 32) ||| 6 = 6 := by decide
  simp only [Capability.issue, regrantCap, h1, h2, ne_eq, not_true_eq_false, if_false,
    not_false_eq_true, if_true, h5, h6, Capability.dropCovered, List.reverse_cons,
    List.reverse_nil, List.nil_append, List.cons_append, List.dropWhile_cons, h3, h4]
  rfl

theorem regrant_issue_revoke (t : UInt32) :
    (⟨6, 7, [⟨1, 1, 0⟩], t, 0, false⟩ : Capability).issue 2 = (regrantCap t, t + 1) := by
  have h1 : (6 : BitVec 32) &&& ~~~2 ≠ 0 := by decide
  have h5 : (7 : BitVec 32) ||| 2 = 7 := by decide
  simp only [Capability.issue, regrantCap, h1, ne_eq, not_false_eq_true, if_true, h5]
  rfl

theorem run_regrant_round (s : UInt32) (tc : List (UInt32 × BitVec 32)) :
    run step ⟨regrantCap s, tc, ⟨0, 0⟩, []⟩ [.issue 6, .issue 2] =
      some ⟨regrantCap (s + 1 + 1), tc ++ [(s + 1 + 1, 6)] ++ [(s + 1 + 1 + 1, 2)], ⟨0, 0⟩, []⟩ := by
  simp only [run, step, sendCap, regrant_issue_grant, regrant_issue_revoke, Option.bind_some]
  rfl

/-- Each round moves the seq of the last revocation on by two, modulo 2^32. -/
theorem run_regrantRounds (n : ℕ) : ∀ (s : UInt32) (tc : List (UInt32 × BitVec 32)),
    ∃ s' tc', s'.toNat = (s.toNat + 2 * n) % 2 ^ 32 ∧
      run step ⟨regrantCap s, tc, ⟨0, 0⟩, []⟩ (regrantRounds n) =
        some ⟨regrantCap s', tc', ⟨0, 0⟩, []⟩ := by
  induction n with
  | zero =>
    intro s tc
    exact ⟨s, tc, by simp, rfl⟩
  | succ n ih =>
    intro s tc
    obtain ⟨s', tc', hs', hrun⟩ := ih (s + 1 + 1) (tc ++ [(s + 1 + 1, 6)] ++ [(s + 1 + 1 + 1, 2)])
    refine ⟨s', tc', ?_, ?_⟩
    · rw [hs', UInt32.toNat_add, UInt32.toNat_add, UInt32.toNat_one]
      omega
    · have hsplit : regrantRounds (n + 1) = [.issue 6, .issue 2] ++ regrantRounds n := by
        simp [regrantRounds, List.replicate_succ]
      rw [hsplit, run_append, run_regrant_round]
      exact hrun

/-- Two ways the tracking fails. clean_revoke_from can drop a revocation whose
before-set the client still holds: after issue 3, the client's handling of it and a
revoking issue 1, clean_revoke_from 0 leaves issued() = 1 while the client holds 3;
and when the client's ack of the first message is confirmed afterwards, issued()
becomes 3, no longer pending together with the before-sets. And once 2^32 cap
messages have been sent, last_sent wraps, and a revocation recorded at the wrapped
seq sits behind one with the same seq. -/
theorem cleanRevoke_or_seqWrap_breaks_tracking :
    (∃ w, run step init [.issue 3, .clientHandle, .issue 1, .cleanRevokeFrom 0] = some w ∧
      ¬ Sub w.client.held w.cap.issued) ∧
    (∃ w, run step init [.issue 3, .clientHandle, .issue 1, .clientAck, .cleanRevokeFrom 0,
        .confirm] = some w ∧
      w.cap.issued ≠ calcIssued w.cap.pending w.cap.revokes) ∧
    (∃ w, run step init ([.issue 1, .issue 2, .issue 6, .issue 2] ++ regrantRounds (2 ^ 31 - 1)) =
        some w ∧
      ¬ (w.cap.revokes.map RevokeInfo.seq).Pairwise (· < ·)) := by
  refine ⟨⟨_, rfl, by decide⟩, ⟨_, rfl, by decide⟩, ?_⟩
  obtain ⟨tc, htc⟩ : ∃ tc, run step init [.issue 1, .issue 2, .issue 6, .issue 2] =
      some ⟨regrantCap 3, tc, ⟨0, 0⟩, []⟩ := ⟨_, rfl⟩
  obtain ⟨s', tc', hs', hrun⟩ := run_regrantRounds (2 ^ 31 - 1) 3 tc
  have hs1 : s' = 1 := UInt32.toNat_inj.mp (by rw [hs']; simp)
  refine ⟨_, by rw [run_append, htc, Option.bind_some]; exact hrun, ?_⟩
  subst hs1
  show ¬ ((regrantCap 1).revokes.map RevokeInfo.seq).Pairwise (· < ·)
  decide

/-- On every run that sends fewer than 2^32 cap messages, pending stays under issued,
the revocations stay in increasing seq order and the cap leaves the revoking lists
only when settled; on such runs without clean_revoke_from, moreover, the client holds
nothing outside issued() and issued() is pending together with the before-sets. -/
theorem cap_tracking_sound {es : List Event} {w : World} (hrun : run step init es = some w)
    (hsends : es.countP Event.sends < 2 ^ 32) :
    Sub w.cap.pending w.cap.issued ∧
    (w.cap.revokes.map RevokeInfo.seq).Pairwise (· < ·) ∧
    (∀ e w', w.step e = some w' → w.cap.revoking = true → w'.cap.revoking = false →
      w'.cap.issued = w'.cap.pending) ∧
    ((∀ e ∈ es, e.cleans = false) →
      Sub w.client.held w.cap.issued ∧ w.cap.issued = calcIssued w.cap.pending w.cap.revokes) := by
  have hrep := repInv_run hrun hsends
  refine ⟨hrep.pending_sub, hrep.sorted, fun e w' hs hr hr' => step_unlink_settled hs hr hr', ?_⟩
  intro hclean
  have hinv := inv_run hrun hclean hsends
  exact ⟨hinv.held_sub_issued, hinv.issued⟩

/-- A revocation of bit 1 that the client acknowledges: the cap is linked on the
revoking lists, and the confirmation settles it. -/
def revokeTrace : List Event :=
  [.issue 3, .clientHandle, .issue 1, .markRevoking, .clientHandle, .clientAck, .confirm]

theorem revokeTrace_tracked :
    ∃ w, run step init revokeTrace = some w ∧
      (Sub w.cap.pending w.cap.issued ∧
      (w.cap.revokes.map RevokeInfo.seq).Pairwise (· < ·) ∧
      (∀ e w', w.step e = some w' → w.cap.revoking = true → w'.cap.revoking = false →
        w'.cap.issued = w'.cap.pending) ∧
      ((∀ e ∈ revokeTrace, e.cleans = false) →
        Sub w.client.held w.cap.issued ∧
          w.cap.issued = calcIssued w.cap.pending w.cap.revokes)) := by
  obtain ⟨w, hw⟩ : ∃ w, run step init revokeTrace = some w := ⟨_, rfl⟩
  exact ⟨w, hw, cap_tracking_sound hw (by decide)⟩

end World

end Lunule.Caps
