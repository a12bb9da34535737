import Mathlib.Algebra.Group.Nat.Defs
import Lunule.Multimap
import Lunule.OrdMap
import Lunule.Runs

/-!
Advisory byte-range locks (mds/flock.h, mds/flock.cc). A ceph_lock_state_t keeps
the held and the waiting locks in two multimaps keyed by start offset, and for each
client the number of its held and waiting locks. A lock covers `length` bytes from
`start`, or every byte from `start` on when `length` is 0. add_lock collects the
locks that overlap the request by a backward walk from the last lock starting at
or before the request's end; it succeeds unless another owner's lock blocks it,
and then adjust_locks trims, splits, merges and coalesces the requester's own
locks before the new one goes in. Offsets are 64-bit and wrap; the merge in
adjust_locks keeps its end point in an `int`.

is_deadlock reads the waiting locks of every inode through a global multimap; the
model takes its answer as an input of add_lock.
-/

namespace Lunule.Flock

open Multimap

/-- ceph_filelock. -/
structure Filelock where
  start : UInt64
  length : UInt64
  client : UInt64
  owner : UInt64
  pid : UInt64
  type : UInt8
  deriving DecidableEq, Repr

def lockShared : UInt8 := 1

def lockExcl : UInt8 := 2

def lockUnlock : UInt8 := 4

/-- ceph_filelock_owner_equal: client and owner agree, and for an old client (top bit
of owner clear) the pid too. -/
def ownerEqual (l r : Filelock) : Bool :=
  if l.client ≠ r.client ∨ l.owner ≠ r.owner then false
  else if l.owner &&& ((1 : UInt64) <<< 63) ≠ 0 then true
  else l.pid = r.pid

/-- The client_t a lock counts against: its client id as a signed 64-bit value. -/
def clientKey (l : Filelock) : ℤ := l.client.toInt64.toInt

/-- The value of `(uint64_t)(int)x`: the low 32 bits, sign-extended. -/
def intTemp (x : UInt64) : UInt64 := UInt64.ofBitVec ((x.toBitVec.setWidth 32).signExtend 64)

/-- A multimap node: the iterator, the start offset it is keyed by, and the lock. -/
abbrev Entry := Node UInt64 Filelock

/-- The `type` of a lock state: fcntl (POSIX) or flock locks. -/
inductive LockRule where
  | fcntl
  | flock
  deriving DecidableEq, Repr

structure LockState where
  type : LockRule
  held : List Entry
  waiting : List Entry
  heldCounts : List (ℤ × Int)
  waitingCounts : List (ℤ × Int)
  nextId : ℕ
  deriving DecidableEq, Repr

def LockState.empty (type : LockRule) : LockState := ⟨type, [], [], [], [], 0⟩

/-! ## Counts -/

/-- `++counts[c]` or `--counts[c]`: a missing entry is read as 0. -/
def bump (m : List (ℤ × Int)) (c : ℤ) (d : Int) : List (ℤ × Int) :=
  OrdMap.set m c ((OrdMap.find? m c).getD 0 + d)

/-- `if (!counts[c]) counts.erase(c)`. -/
def dropZero (m : List (ℤ × Int)) (c : ℤ) : List (ℤ × Int) :=
  if (OrdMap.find? m c).getD 0 = 0 then OrdMap.erase m c else m

namespace LockState

def incHeld (st : LockState) (c : ℤ) : LockState := { st with heldCounts := bump st.heldCounts c 1 }

def decHeld (st : LockState) (c : ℤ) : LockState :=
  { st with heldCounts := bump st.heldCounts c (-1) }

def dropHeldZero (st : LockState) (c : ℤ) : LockState :=
  { st with heldCounts := dropZero st.heldCounts c }

def insertHeld (st : LockState) (l : Filelock) : LockState :=
  { st with held := Multimap.insert st.held ⟨st.nextId, l.start, l⟩, nextId := st.nextId + 1 }

def eraseHeld (st : LockState) (i : ℕ) : LockState := { st with held := Multimap.erase st.held i }

/-- `old_lock->length = len` through the iterator. -/
def setLength (st : LockState) (i : ℕ) (len : UInt64) : LockState :=
  { st with held := Multimap.update st.held i fun l => { l with length := len } }

/-- Erase the held lock at iterator `i` and uncount it against client `c`. -/
def dropHeld (st : LockState) (i : ℕ) (c : ℤ) : LockState := (st.eraseHeld i).decHeld c

/-- Add a held lock and count it against its client. -/
def addHeld (st : LockState) (l : Filelock) : LockState := (st.insertHeld l).incHeld (clientKey l)

end LockState

/-! ## Overlap search -/

/-- share_space: the lock at the iterator has a byte in [start, end]. -/
def shareSpace (e : Entry) (start end_ : UInt64) : Bool :=
  (e.key ≥ start ∧ e.key ≤ end_) ∨
    (e.key < start ∧ (e.key + e.val.length - 1 ≥ start ∨ e.val.length = 0))

/-- The last byte of a lock, `uint64_t(-1)` for a lock to the end of the file. -/
def lockEnd (l : Filelock) : UInt64 := if l.length ≠ 0 then l.start + (l.length - 1) else -1

def shareSpaceLock (e : Entry) (l : Filelock) : Bool := shareSpace e l.start (lockEnd l)

/-- The lock one byte wider on each side that get_overlapping_locks uses to find
the requester's neighbours. -/
def neighborCheckLock (l : Filelock) : Filelock :=
  if l.start ≠ 0 then
    { l with start := l.start - 1, length := if l.length ≠ 0 then l.length + 2 else l.length }
  else { l with length := if l.length ≠ 0 then l.length + 1 else l.length }

/-- get_last_before: the position of the last lock keyed at most `end_`, the first
position when there is none, nothing for an empty map. -/
def getLastBefore (m : List Entry) (end_ : UInt64) : Option ℕ :=
  if m = [] then none else some (upperBound m end_ - 1)

/-- The loop of get_overlapping_locks over the locks from the start point back to
the first; an exclusive lock that starts before the request ends the walk. The
overlapping locks and the neighbours come out in map order. -/
def overlapWalk (l nc : Filelock) (neighbors : Bool) :
    List Entry → List Entry × List Entry → List Entry × List Entry
  | [], acc => acc
  | e :: rest, (ov, nb) =>
    let acc :=
      if shareSpaceLock e l then (e :: ov, nb)
      else if neighbors ∧ ownerEqual nc e.val ∧ shareSpaceLock e nc then (ov, e :: nb)
      else (ov, nb)
    if e.key < l.start ∧ e.val.type = lockExcl then acc
    else overlapWalk l nc neighbors rest acc

/-- get_overlapping_locks, with the neighbours when `neighbors` is set. -/
def getOverlappingLocks (m : List Entry) (l : Filelock) (neighbors : Bool) :
    List Entry × List Entry :=
  let endpoint := if l.length ≠ 0 then l.start + l.length else -1
  match getLastBefore m endpoint with
  | none => ([], [])
  | some i => overlapWalk l (neighborCheckLock l) neighbors ((m.take (i + 1)).reverse) ([], [])

/-- split_by_owner: the locks of other owners, and those of the owner of `o`. -/
def splitByOwner (o : Filelock) (locks : List Entry) : List Entry × List Entry :=
  (locks.filter fun e => !ownerEqual e.val o, locks.filter fun e => ownerEqual e.val o)

def containsExclusiveLock (locks : List Entry) : Option Filelock :=
  (locks.find? fun e => e.val.type = lockExcl).map (·.val)

/-! ## adjust_locks -/

/-- One pass of adjust_locks' first loop over the requester's own lock at iterator
`i` that overlaps the new lock; `newToEnd` is read once, before the loop. -/
def adjustOld (newToEnd : Bool) (p : LockState × Filelock) (i : ℕ) : LockState × Filelock :=
  match Multimap.find? p.1.held i with
  | none => p
  | some e =>
    let st := p.1
    let nl := p.2
    let o := e.val
    let oldEnd := o.start + o.length - 1
    let newEnd := nl.start + nl.length - 1
    let c := clientKey o
    -- what is left of the old lock: trimmed to end before the new one, or erased
    let keepFront (st : LockState) : LockState :=
      if o.start < nl.start then st.setLength i (nl.start - o.start) else st.dropHeld i c
    let r : LockState × Filelock :=
      if newToEnd ∨ o.length = 0 then
        if o.type = nl.type then
          (st.dropHeld i c,
            { nl with start := if nl.start < o.start then nl.start else o.start, length := 0 })
        else if newToEnd then (keepFront st, nl)
        else
          (keepFront ((st.insertHeld { o with start := newEnd + 1 }).incHeld c), nl)
      else if o.type = nl.type then
        let start := if o.start < nl.start then o.start else nl.start
        let newEnd' := intTemp (if newEnd > oldEnd then newEnd else oldEnd)
        (st.dropHeld i c, { nl with start, length := newEnd' - start + 1 })
      else
        let st := if oldEnd > newEnd then
            (st.insertHeld { o with start := newEnd + 1, length := oldEnd - (newEnd + 1) + 1 }).incHeld c
          else st
        (keepFront st, nl)
    (r.1.dropHeldZero c, r.2)

/-- One pass of the coalescing loop over a neighbour at iterator `i`; the two
ceph_abort calls, for a neighbour on the wrong side of a lock to the end of the
file, give `none`. -/
def coalesce (p : LockState × Filelock) (i : ℕ) : Option (LockState × Filelock) :=
  match Multimap.find? p.1.held i with
  | none => some p
  | some e =>
    let st := p.1
    let nl := p.2
    let o := e.val
    let c := clientKey o
    if o.type = nl.type then
      let merged : Option Filelock :=
        if nl.length = 0 then
          if o.start + o.length = nl.start then some { nl with start := o.start } else none
        else if o.length = 0 then
          if nl.start + nl.length = o.start then some { nl with length := 0 } else none
        else if o.start + o.length = nl.start then
          some { nl with start := o.start, length := o.length + nl.length }
        else if nl.start + nl.length = o.start then some { nl with length := o.length + nl.length }
        else some nl
      merged.map fun nl => ((st.dropHeld i c).dropHeldZero c, nl)
    else some (st.dropHeldZero c, nl)

/-- ceph_lock_state_t::adjust_locks. -/
def adjustLocks (st : LockState) (olds : List Entry) (nl : Filelock) (neighbors : List Entry) :
    Option (LockState × Filelock) :=
  (neighbors.map (·.id)).foldlM coalesce ((olds.map (·.id)).foldl (adjustOld (nl.length = 0)) (st, nl))

/-- What a coalescing pass does to the state: nothing, or it drops the neighbour,
merged into the new lock, or it only tidies the count of the neighbour's client. -/
theorem coalesce_state {p q : LockState × Filelock} {i : ℕ} (hq : coalesce p i = some q) :
    q.1 = p.1 ∨ ∃ e, Multimap.find? p.1.held i = some e ∧
      (q.1 = (p.1.dropHeld i (clientKey e.val)).dropHeldZero (clientKey e.val) ∨
        q.1 = p.1.dropHeldZero (clientKey e.val)) := by
  unfold coalesce at hq
  split at hq
  · cases hq
    exact Or.inl rfl
  · rename_i e he
    refine Or.inr ⟨e, he, ?_⟩
    dsimp only at hq
    split at hq
    · obtain ⟨nl, -, rfl⟩ := Option.map_eq_some_iff.mp hq
      exact Or.inl rfl
    · cases hq
      exact Or.inr rfl

/-! ## Waiting locks -/

/-- The waiting locks from the first one keyed at `fl.start` on: what
`waiting_locks.find(fl.start)` and the loops after it walk over. -/
def waitingFrom (st : LockState) (fl : Filelock) : List Entry :=
  st.waiting.dropWhile fun e => e.key ≠ fl.start

/-- The first waiting lock of that walk that stands for `fl`, before the walk passes
beyond `fl.start`. -/
def findWaiting (fl : Filelock) : List Entry → Option Entry
  | [] => none
  | e :: rest =>
    if e.val.start > fl.start then none
    else if e.val.length = fl.length ∧ ownerEqual e.val fl then some e
    else findWaiting fl rest

/-- ceph_lock_state_t::is_waiting. -/
def isWaiting (st : LockState) (fl : Filelock) : Bool := (findWaiting fl (waitingFrom st fl)).isSome

/-- ceph_lock_state_t::remove_waiting. -/
def removeWaiting (st : LockState) (fl : Filelock) : LockState :=
  match findWaiting fl (waitingFrom st fl) with
  | none => st
  | some e =>
    { st with
      waiting := Multimap.erase st.waiting e.id
      waitingCounts := dropZero (bump st.waitingCounts (clientKey fl) (-1)) (clientKey fl) }

/-- ceph_lock_state_t::add_waiting. -/
def addWaiting (st : LockState) (fl : Filelock) : LockState :=
  { st with
    waiting := Multimap.insert st.waiting ⟨st.nextId, fl.start, fl⟩
    nextId := st.nextId + 1
    waitingCounts := bump st.waitingCounts (clientKey fl) 1 }

/-! ## The requests -/

/-- ceph_lock_state_t::add_lock: the new state, whether the lock was set, and whether
`*deadlock` was set. `deadlock` is what is_deadlock answers for the request. -/
def addLock (st : LockState) (nl : Filelock) (waitOnFail replay deadlock : Bool) :
    Option (LockState × Bool × Bool) :=
  let (ov, nb) := getOverlappingLocks st.held nl true
  let (others, self) := splitByOwner nl ov
  if others ≠ [] ∧ (nl.type = lockExcl ∨ (containsExclusiveLock others).isSome) then
    if waitOnFail ∧ ¬ replay then
      -- is_deadlock answers false at once for flock locks
      if st.type = .fcntl ∧ deadlock then some (st, false, true)
      else some (addWaiting st nl, false, false)
    else some (st, false, false)
  else
    (adjustLocks (removeWaiting st nl) self nl nb).map fun r => (r.1.addHeld r.2, true, false)

/-- ceph_lock_state_t::look_for_lock: the first blocking lock, or the request with
type CEPH_LOCK_UNLOCK when nothing blocks it. -/
def lookForLock (st : LockState) (t : Filelock) : Filelock :=
  match (splitByOwner t (getOverlappingLocks st.held t false).1).1 with
  | [] => { t with type := lockUnlock }
  | e :: rest =>
    if t.type = lockExcl then e.val
    else (containsExclusiveLock (e :: rest)).getD { t with type := lockUnlock }

/-- One pass of remove_lock's loop over the remover's own lock at iterator `i`. -/
def removeOld (r : Filelock) (st : LockState) (i : ℕ) : LockState :=
  match Multimap.find? st.held i with
  | none => st
  | some e =>
    let o := e.val
    let removalEnd := r.start + r.length - 1
    let oldEnd := o.start + o.length - 1
    let c := clientKey o
    let st :=
      if r.length = 0 then
        if o.start < r.start then st.setLength i (r.start - o.start) else st.dropHeld i c
      else if o.length = 0 then
        let st := (st.insertHeld { o with start := removalEnd + 1 }).incHeld c
        if o.start ≥ r.start then st.dropHeld i c else st.setLength i (r.start - o.start)
      else
        let st := if oldEnd > removalEnd then
            (st.insertHeld { o with start := removalEnd + 1,
                                    length := oldEnd - (removalEnd + 1) + 1 }).incHeld c
          else st
        if o.start < r.start then st.setLength i (r.start - o.start) else st.dropHeld i c
    st.dropHeldZero c

/-- ceph_lock_state_t::remove_lock; its list of activated locks is never filled. -/
def removeLock (st : LockState) (r : Filelock) : LockState :=
  (((splitByOwner r (getOverlappingLocks st.held r false).1).2).map (·.id)).foldl (removeOld r) st

/-- ceph_lock_state_t::remove_all_from: the new state, and whether the client held
any lock. -/
def removeAllFrom (st : LockState) (client : ℤ) : LockState × Bool :=
  let held := (OrdMap.find? st.heldCounts client).isSome
  let st := if held then
      { st with held := st.held.filter fun e => clientKey e.val ≠ client,
                heldCounts := OrdMap.erase st.heldCounts client }
    else st
  let st := if (OrdMap.find? st.waitingCounts client).isSome then
      { st with waiting := st.waiting.filter fun e => clientKey e.val ≠ client,
                waitingCounts := OrdMap.erase st.waitingCounts client }
    else st
  (st, held)

/-- The calls a lock state sees. -/
inductive Event where
  | addLock (l : Filelock) (waitOnFail replay deadlock : Bool)
  | removeLock (l : Filelock)
  | removeWaiting (l : Filelock)
  | removeAllFrom (client : ℤ)
  deriving DecidableEq, Repr

def step (st : LockState) : Event → Option LockState
  | .addLock l w r d => (addLock st l w r d).map (·.1)
  | .removeLock l => some (removeLock st l)
  | .removeWaiting l => some (removeWaiting st l)
  | .removeAllFrom c => some (removeAllFrom st c).1

/-! ## The locked bytes -/

/-- Byte `x` of the 64-bit offset space lies in the lock: from `start`, `length` bytes
or, for length 0, every byte to the end. -/
def Covers (l : Filelock) (x : ℕ) : Prop :=
  l.start.toNat ≤ x ∧ x < 2 ^ 64 ∧ (l.length = 0 ∨ x < l.start.toNat + l.length.toNat)

instance (l : Filelock) (x : ℕ) : Decidable (Covers l x) :=
  inferInstanceAs (Decidable (_ ∧ _ ∧ _))

/-- The abstract lock map: the type of the held lock of `o`'s owner on byte `x`. -/
def lockedAs (st : LockState) (o : Filelock) (x : ℕ) : Option UInt8 :=
  (st.held.find? fun e => ownerEqual e.val o ∧ decide (Covers e.val x)).map (·.val.type)

/-! ## Edits of the held locks -/

/-- A property of lock states that the edits of the held locks and their counts keep. -/
structure HeldClosed (P : LockState → Prop) : Prop where
  insertHeld : ∀ st l, P st → P (st.insertHeld l)
  eraseHeld : ∀ st i, P st → P (st.eraseHeld i)
  setLength : ∀ st i len, P st → P (st.setLength i len)
  counts : ∀ (st : LockState) (heldCounts : List (ℤ × Int)), P st → P { st with heldCounts := heldCounts }

namespace HeldClosed

variable {P : LockState → Prop} (hP : HeldClosed P) {st : LockState}
include hP

theorem incHeld (h : P st) (c : ℤ) : P (st.incHeld c) := hP.counts st _ h

theorem decHeld (h : P st) (c : ℤ) : P (st.decHeld c) := hP.counts st _ h

theorem dropHeldZero (h : P st) (c : ℤ) : P (st.dropHeldZero c) := hP.counts st _ h

theorem dropHeld (h : P st) (i : ℕ) (c : ℤ) : P (st.dropHeld i c) :=
  hP.decHeld (hP.eraseHeld st i h) c

theorem addHeld (h : P st) (l : Filelock) : P (st.addHeld l) := hP.incHeld (hP.insertHeld st l h) _

theorem adjustOld (b : Bool) {p : LockState × Filelock} (h : P p.1) (i : ℕ) :
    P (Flock.adjustOld b p i).1 := by
  unfold Flock.adjustOld
  split
  · exact h
  · dsimp only
    apply hP.dropHeldZero
    split_ifs <;>
      first
      | exact hP.dropHeld h _ _
      | exact hP.setLength _ _ _ h
      | exact hP.setLength _ _ _ (hP.incHeld (hP.insertHeld _ _ h) _)
      | exact hP.dropHeld (hP.incHeld (hP.insertHeld _ _ h) _) _ _

theorem coalesce {p q : LockState × Filelock} {i : ℕ} (h : P p.1)
    (hq : Flock.coalesce p i = some q) : P q.1 := by
  rcases coalesce_state hq with hq | ⟨e, -, hq | hq⟩ <;> rw [hq]
  · exact h
  · exact hP.dropHeldZero (hP.dropHeld h _ _) _
  · exact hP.dropHeldZero h _

/-- adjust_locks: its first loop pass by pass, and the coalescing loop as a run of its body. -/
theorem adjustLocks {olds nb : List Entry} {nl : Filelock} {q : LockState × Filelock}
    (h : P st) (hq : Flock.adjustLocks st olds nl nb = some q) : P q.1 := by
  have hfirst : ∀ (ids : List ℕ) (p : LockState × Filelock), P p.1 →
      P (ids.foldl (Flock.adjustOld (nl.length = 0)) p).1 := by
    intro ids
    induction ids with
    | nil => exact fun p hp => hp
    | cons i ids ih => exact fun p hp => ih _ (hP.adjustOld _ hp i)
  unfold Flock.adjustLocks at hq
  rw [← Runs.run_eq_foldlM] at hq
  exact Runs.run_invariant Flock.coalesce (fun p => P p.1) (fun _ _ _ hp hs => hP.coalesce hp hs)
    _ _ _ (hfirst _ _ h) hq

theorem removeOld (r : Filelock) (h : P st) (i : ℕ) : P (Flock.removeOld r st i) := by
  unfold Flock.removeOld
  split
  · exact h
  · dsimp only
    apply hP.dropHeldZero
    split_ifs <;>
      first
      | exact hP.dropHeld h _ _
      | exact hP.setLength _ _ _ h
      | exact hP.setLength _ _ _ (hP.incHeld (hP.insertHeld _ _ h) _)
      | exact hP.dropHeld (hP.incHeld (hP.insertHeld _ _ h) _) _ _

/-- remove_lock: its loop over the remover's own locks. -/
theorem removeLock (h : P st) (r : Filelock) : P (Flock.removeLock st r) := by
  unfold Flock.removeLock
  generalize ((splitByOwner r (getOverlappingLocks st.held r false).1).2.map (·.id)) = ids
  induction ids generalizing st with
  | nil => exact h
  | cons i ids ih => exact ih (hP.removeOld r h i)

end HeldClosed

/-! ## Every node is keyed by its lock's start -/

/-- The multimap key of every node is the start of its lock. -/
def Keyed (m : List Entry) : Prop := ∀ e ∈ m, e.key = e.val.start

structure LockState.Keyed (st : LockState) : Prop where
  held : Flock.Keyed st.held
  waiting : Flock.Keyed st.waiting

section Keyed

variable {m : List Entry} {st : LockState}

theorem keyed_insert (h : Keyed m) (i : ℕ) (l : Filelock) : Keyed (Multimap.insert m ⟨i, l.start, l⟩) := by
  intro e he
  rcases mem_insert.mp he with rfl | he
  · rfl
  · exact h e he

theorem keyed_erase (h : Keyed m) (i : ℕ) : Keyed (Multimap.erase m i) :=
  fun e he => h e (mem_of_mem_erase he)

theorem keyed_filter (h : Keyed m) (p : Entry → Bool) : Keyed (m.filter p) :=
  fun e he => h e (List.mem_filter.mp he).1

theorem keyed_setLength (h : Keyed m) (i : ℕ) (len : UInt64) :
    Keyed (Multimap.update m i fun l => { l with length := len }) := by
  intro e he
  obtain ⟨y, hy, hey | hey⟩ := mem_update he
  · rw [hey]
    exact h y hy
  · rw [hey]
    exact h y hy

/-- The edits of the held locks keep every node keyed. -/
theorem heldClosed_keyed : HeldClosed LockState.Keyed where
  insertHeld _ l h := ⟨keyed_insert h.held _ l, h.waiting⟩
  eraseHeld _ i h := ⟨keyed_erase h.held i, h.waiting⟩
  setLength _ i len h := ⟨keyed_setLength h.held i len, h.waiting⟩
  counts _ _ h := ⟨h.held, h.waiting⟩

theorem keyed_removeWaiting (h : st.Keyed) (fl : Filelock) : (removeWaiting st fl).Keyed := by
  unfold removeWaiting
  split
  · exact h
  · exact ⟨h.held, keyed_erase h.waiting _⟩

theorem keyed_addWaiting (h : st.Keyed) (fl : Filelock) : (addWaiting st fl).Keyed :=
  ⟨h.held, keyed_insert h.waiting _ fl⟩

theorem keyed_addLock {nl : Filelock} {w r d : Bool} {q : LockState × Bool × Bool} (h : st.Keyed)
    (hq : addLock st nl w r d = some q) : q.1.Keyed := by
  unfold addLock at hq
  dsimp only at hq
  split_ifs at hq
  · cases hq
    exact h
  · cases hq
    exact keyed_addWaiting h nl
  · cases hq
    exact h
  · obtain ⟨a, ha, rfl⟩ := Option.map_eq_some_iff.mp hq
    exact heldClosed_keyed.addHeld (heldClosed_keyed.adjustLocks (keyed_removeWaiting h nl) ha) _

theorem keyed_removeAllFrom (h : st.Keyed) (c : ℤ) : (removeAllFrom st c).1.Keyed := by
  unfold removeAllFrom
  dsimp only
  split_ifs
  · exact ⟨keyed_filter h.held _, keyed_filter h.waiting _⟩
  · exact ⟨keyed_filter h.held _, h.waiting⟩
  · exact ⟨h.held, keyed_filter h.waiting _⟩
  · exact h

theorem keyed_step {e : Event} {st' : LockState} (h : st.Keyed) (hs : step st e = some st') :
    st'.Keyed := by
  cases e with
  | addLock l w r d =>
    obtain ⟨q, hq, rfl⟩ := Option.map_eq_some_iff.mp hs
    exact keyed_addLock h hq
  | removeLock l =>
    cases hs
    exact heldClosed_keyed.removeLock h l
  | removeWaiting l =>
    cases hs
    exact keyed_removeWaiting h l
  | removeAllFrom c =>
    cases hs
    exact keyed_removeAllFrom h c

end Keyed

/-! ## The int temporary of adjust_locks -/

/-- Owner 1 takes a shared lock on [0, 2^32), owner 2 an exclusive lock on the byte
2^33. -/
def wideShared : Filelock := ⟨0, 0x100000000, 1, 1, 1, lockShared⟩

def farExclusive : Filelock := ⟨0x200000000, 1, 2, 2, 2, lockExcl⟩

/-- Owner 1 then asks for a shared lock on [1, 2), inside its own. -/
def innerShared : Filelock := ⟨1, 1, 1, 1, 1, lockShared⟩

/-- The merge with the own lock [0, 2^32) keeps the end 2^32 - 1 in an `int`, which
reads it as -1; the merged length 2^64 wraps to 0, and owner 1 ends up with a shared
lock from 0 to the end of the file, over owner 2's exclusive byte. -/
theorem merge_overlaps_exclusive :
    ∃ st, Runs.run step (LockState.empty .fcntl)
        [.addLock wideShared false false false, .addLock farExclusive false false false,
          .addLock innerShared false false false] = some st ∧
      ∃ e₁ ∈ st.held, ∃ e₂ ∈ st.held, ownerEqual e₁.val e₂.val = false ∧
        e₂.val.type = lockExcl ∧ Covers e₁.val (2 ^ 33) ∧ Covers e₂.val (2 ^ 33) :=
  ⟨_, rfl, by decide⟩

/-- The same merge, read through the abstract map: add_lock of [1, 2) succeeds and
gives owner 1 a shared lock on the byte 2^32, outside the request, where it had none. -/
theorem merge_locks_outside_request :
    ∃ st st', Runs.run step (LockState.empty .fcntl)
        [.addLock wideShared false false false, .addLock farExclusive false false false] = some st ∧
      addLock st innerShared false false false = some (st', true, false) ∧
      ¬ Covers innerShared (2 ^ 32) ∧
      lockedAs st wideShared (2 ^ 32) = none ∧ lockedAs st' wideShared (2 ^ 32) = some lockShared :=
  ⟨_, _, rfl, rfl, by decide, by decide, by decide⟩

end Lunule.Flock
