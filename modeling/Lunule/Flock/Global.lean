import Lunule.Flock
import Lunule.SortedBag

/-!
The lock states of all inodes together (mds/flock.cc). Every fcntl lock state files its
waiting locks in the process-global multimap global_waiting_locks, keyed by the lock and
ordered by ceph_filelock_compare, with the state each one waits in; add_waiting,
remove_waiting and remove_all_from keep it up to date. is_deadlock reads it to follow the
owners a request would wait for from inode to inode.

ceph_filelock_compare is the lexicographic order on client, owner, pid (left out for a new
client, whose owner has its top bit set), start, length and type; `lockRank` packs these
into one number so that the comparison is the order of `ℕ`, and the global multimap is a
`SortedBag` for it. An inode is a number; the system is the lock state of each inode with
the global multimap.
-/

namespace Lunule.Flock

/-! ## ceph_filelock_compare -/

/-- ceph_filelock_owner_compare. -/
def ownerCompare (l r : Filelock) : Ordering :=
  if l.client ≠ r.client then (if l.client > r.client then .gt else .lt)
  else if l.owner ≠ r.owner then (if l.owner > r.owner then .gt else .lt)
  else if l.owner &&& ((1 : UInt64) <<< 63) ≠ 0 then .eq
  else if l.pid ≠ r.pid then (if l.pid > r.pid then .gt else .lt)
  else .eq

/-- ceph_filelock_compare, the order of global_waiting_locks. -/
def filelockCompare (l r : Filelock) : Ordering :=
  match ownerCompare l r with
  | .eq =>
    if l.start ≠ r.start then (if l.start > r.start then .gt else .lt)
    else if l.length ≠ r.length then (if l.length > r.length then .gt else .lt)
    else if l.type ≠ r.type then (if l.type > r.type then .gt else .lt)
    else .eq
  | o => o

/-- Who owns a lock: client, owner, and the pid for an old client. -/
def ownerKey (l : Filelock) : UInt64 × UInt64 × UInt64 :=
  (l.client, l.owner, if l.owner &&& ((1 : UInt64) <<< 63) ≠ 0 then 0 else l.pid)

/-- The place of a lock in the order of ceph_filelock_compare. -/
def lockRank (l : Filelock) : ℕ :=
  (((((ownerKey l).1.toNat * 2 ^ 64 + (ownerKey l).2.1.toNat) * 2 ^ 64 + (ownerKey l).2.2.toNat) *
    2 ^ 64 + l.start.toNat) * 2 ^ 64 + l.length.toNat) * 2 ^ 8 + l.type.toNat

theorem compare_mul_add {a b x y n : ℕ} (hx : x < n) (hy : y < n) :
    compare (a * n + x) (b * n + y) = (compare a b).then (compare x y) := by
  rcases lt_trichotomy a b with h | rfl | h
  · have hlt : a * n + x < b * n + y :=
      calc a * n + x < (a + 1) * n := by rw [Nat.succ_mul]; omega
        _ ≤ b * n := Nat.mul_le_mul_right n h
        _ ≤ b * n + y := Nat.le_add_right _ _
    rw [compare_lt_iff_lt.2 hlt, compare_lt_iff_lt.2 h, Ordering.lt_then]
  · rw [compare_eq_iff_eq.2 rfl, Ordering.eq_then]
    rcases lt_trichotomy x y with h | rfl | h
    · rw [compare_lt_iff_lt.2 h, compare_lt_iff_lt.2 (by omega)]
    · rw [compare_eq_iff_eq.2 rfl, compare_eq_iff_eq.2 rfl]
    · rw [compare_gt_iff_gt.2 h, compare_gt_iff_gt.2 (by omega)]
  · have hgt : b * n + y < a * n + x :=
      calc b * n + y < (b + 1) * n := by rw [Nat.succ_mul]; omega
        _ ≤ a * n := Nat.mul_le_mul_right n h
        _ ≤ a * n + x := Nat.le_add_right _ _
    rw [compare_gt_iff_gt.2 hgt, compare_gt_iff_gt.2 h, Ordering.gt_then]

/-- The `l.f != r.f ? (l.f > r.f ? 1 : -1) : ...` step of the comparisons, for a field
whose order is that of its value in `ℕ`. -/
theorem ite_compare {α : Type} [LT α] [DecidableRel (α := α) (· < ·)] [DecidableEq α]
    (toNat : α → ℕ) (hinj : ∀ a b, toNat a = toNat b → a = b)
    (hlt : ∀ a b, a < b ↔ toNat a < toNat b) (a b : α) (k : Ordering) :
    (if a ≠ b then (if a > b then .gt else .lt) else k) = (compare (toNat a) (toNat b)).then k := by
  rcases lt_trichotomy (toNat a) (toNat b) with h | h | h
  · have hne : a ≠ b := fun e => by rw [e] at h; omega
    have hng : ¬ a > b := fun hg => by rw [gt_iff_lt, hlt] at hg; omega
    rw [if_pos hne, if_neg hng, compare_lt_iff_lt.2 h, Ordering.lt_then]
  · rw [if_neg (not_not.2 (hinj a b h)), h, compare_eq_iff_eq.2 rfl, Ordering.eq_then]
  · have hne : a ≠ b := fun e => by rw [e] at h; omega
    have hg : a > b := by rw [gt_iff_lt, hlt]; omega
    rw [if_pos hne, if_pos hg, compare_gt_iff_gt.2 h, Ordering.gt_then]

theorem ite_compare64 (a b : UInt64) (k : Ordering) :
    (if a ≠ b then (if a > b then .gt else .lt) else k) = (compare a.toNat b.toNat).then k :=
  ite_compare UInt64.toNat (fun _ _ h => UInt64.toNat_inj.1 h) (fun _ _ => UInt64.lt_iff_toNat_lt)
    a b k

theorem ite_compare8 (a b : UInt8) (k : Ordering) :
    (if a ≠ b then (if a > b then .gt else .lt) else k) = (compare a.toNat b.toNat).then k :=
  ite_compare UInt8.toNat (fun _ _ h => UInt8.toNat_inj.1 h) (fun _ _ => UInt8.lt_iff_toNat_lt) a b k

theorem then_congr_of_ne {o : Ordering} (ho : o ≠ .eq) (k k' : Ordering) : o.then k = o.then k' := by
  cases o <;> first | rfl | exact absurd rfl ho

theorem ownerCompare_eq (l r : Filelock) :
    ownerCompare l r = (compare (ownerKey l).1.toNat (ownerKey r).1.toNat).then
      ((compare (ownerKey l).2.1.toNat (ownerKey r).2.1.toNat).then
        (compare (ownerKey l).2.2.toNat (ownerKey r).2.2.toNat)) := by
  unfold ownerCompare ownerKey
  rw [ite_compare64, ite_compare64, ite_compare64, Ordering.then_eq]
  congr 1
  by_cases ho : l.owner = r.owner
  · rw [ho, compare_eq_iff_eq.2 rfl, Ordering.eq_then, Ordering.eq_then]
    split_ifs <;> simp
  · have hne : compare l.owner.toNat r.owner.toNat ≠ .eq := by
      rw [Ne, compare_eq_iff_eq]
      exact fun h => ho (UInt64.toNat_inj.1 h)
    exact then_congr_of_ne hne _ _

theorem compare_lockRank (l r : Filelock) :
    compare (lockRank l) (lockRank r) = (ownerCompare l r).then
      ((compare l.start.toNat r.start.toNat).then ((compare l.length.toNat r.length.toNat).then
        (compare l.type.toNat r.type.toNat))) := by
  have h64 : ∀ x : UInt64, x.toNat < 2 ^ 64 := UInt64.toNat_lt
  unfold lockRank
  rw [ownerCompare_eq, compare_mul_add (UInt8.toNat_lt _) (UInt8.toNat_lt _),
    compare_mul_add (h64 _) (h64 _), compare_mul_add (h64 _) (h64 _), compare_mul_add (h64 _) (h64 _),
    compare_mul_add (h64 _) (h64 _)]
  simp only [Ordering.then_assoc]

theorem filelockCompare_eq (l r : Filelock) :
    filelockCompare l r = compare (lockRank l) (lockRank r) := by
  rw [compare_lockRank]
  simp only [filelockCompare, ite_compare64, ite_compare8, Ordering.then_eq]
  cases ownerCompare l r <;> rfl

theorem ownerCompare_eq_eq_iff (l r : Filelock) : ownerCompare l r = .eq ↔ ownerKey l = ownerKey r := by
  simp only [ownerCompare_eq, Ordering.then_eq_eq, compare_eq_iff_eq, UInt64.toNat_inj, Prod.ext_iff]

/-- ceph_filelock_owner_equal is equality of owners. -/
theorem ownerEqual_iff (l r : Filelock) : ownerEqual l r = true ↔ ownerKey l = ownerKey r := by
  rw [← ownerCompare_eq_eq_iff]
  unfold ownerEqual ownerCompare
  split_ifs <;> simp_all

/-- Locks of one rank have one owner, start, length and type. -/
theorem lockRank_eq_iff (l r : Filelock) : lockRank l = lockRank r ↔
    ownerKey l = ownerKey r ∧ l.start = r.start ∧ l.length = r.length ∧ l.type = r.type := by
  rw [← compare_eq_iff_eq, compare_lockRank]
  simp only [Ordering.then_eq_eq, ownerCompare_eq_eq_iff, compare_eq_iff_eq, UInt64.toNat_inj,
    UInt8.toNat_inj]

/-! ## global_waiting_locks -/

/-- The comparison of global_waiting_locks: its keys only. -/
def globalCmp (a b : Filelock × ℕ) : Ordering := filelockCompare a.1 b.1

theorem globalCmp_eq (a b : Filelock × ℕ) : globalCmp a b = compare (lockRank a.1) (lockRank b.1) :=
  filelockCompare_eq a.1 b.1

/-- `global_waiting_locks.insert(pair(fl, state))`. -/
def globalInsert (g : List (Filelock × ℕ)) (fl : Filelock) (s : ℕ) : List (Filelock × ℕ) :=
  SortedBag.insert globalCmp g (fl, s)

/-- remove_global_waiting: among the entries equal to `fl` from the first one on, as `find`
returns it, erase the first that waits in state `s`. -/
def removeGlobalWaiting (g : List (Filelock × ℕ)) (fl : Filelock) (s : ℕ) : List (Filelock × ℕ) :=
  SortedBag.eraseFirst globalCmp g (fl, s) fun q => q.2 = s

/-- The entries is_deadlock visits for an owner: from `lower_bound(o)` while the owner is
equal. -/
def waitersOf (g : List (Filelock × ℕ)) (o : Filelock) : List (Filelock × ℕ) :=
  (SortedBag.fromLowerBound globalCmp g (o, 0)).takeWhile fun q => ownerEqual q.1 o

/-! ## The system -/

/-- The lock state of every inode, and global_waiting_locks. -/
structure Sys where
  states : ℕ → LockState
  global : List (Filelock × ℕ)

/-- Empty lock states of the given rules, and an empty global multimap. -/
def Sys.init (types : ℕ → LockRule) : Sys := ⟨fun s => .empty (types s), []⟩

def Sys.set (sys : Sys) (s : ℕ) (st : LockState) : Sys :=
  { sys with states := Function.update sys.states s st }

@[simp] theorem Sys.set_states_self (sys : Sys) (s : ℕ) (st : LockState) : (sys.set s st).states s = st := by
  simp [Sys.set]

@[simp] theorem Sys.set_states_of_ne (sys : Sys) {s t : ℕ} (st : LockState) (h : t ≠ s) :
    (sys.set s st).states t = sys.states t := by
  simp [Sys.set, h]

@[simp] theorem Sys.set_global (sys : Sys) (s : ℕ) (st : LockState) : (sys.set s st).global = sys.global :=
  rfl

/-! ## is_deadlock -/

def maxDeadlkDepth : ℕ := 5

/-- The entry is_deadlock puts in lock_owners: the lock with start, length and type cleared. -/
def ownerOnly (l : Filelock) : Filelock := { l with start := 0, length := 0, type := 0 }

/-- The search of is_deadlock with `k = MAX_DEADLK_DEPTH - depth` levels left: a conflicting
lock of the first request's owner closes a circle; otherwise, while levels are left, every
waiting lock of a conflicting owner is looked up in its own state, and the search goes on
from the locks of other owners that it overlaps there. lock_owners is a set; the search
reads it as the list of conflicting owners, which gives the same answer. -/
def deadlockSearch (sys : Sys) : ℕ → Option Filelock → Filelock → List Entry → Bool
  | k, firstFl, fl, ov =>
    let conflicting := ov.filter fun p => !(fl.type = lockShared ∧ p.val.type = lockShared)
    conflicting.any (fun p => firstFl.any (ownerEqual · p.val)) ||
    match k with
    | 0 => false
    | k + 1 =>
      (conflicting.map (ownerOnly ·.val)).any fun o =>
        (waitersOf sys.global o).any fun q =>
          let ov' := (splitByOwner q.1 (getOverlappingLocks (sys.states q.2).held q.1 false).1).1
          ov' ≠ [] && deadlockSearch sys k (some (firstFl.getD fl)) q.1 ov'

/-- ceph_lock_state_t::is_deadlock of a state of rule `type`. -/
def isDeadlock (sys : Sys) (type : LockRule) (fl : Filelock) (ov : List Entry)
    (firstFl : Option Filelock) (depth : ℕ) : Bool :=
  type = .fcntl && deadlockSearch sys (maxDeadlkDepth - depth) firstFl fl ov

/-! ## The requests, with the global multimap -/

namespace Sys

/-- add_waiting on inode `s`. -/
def addWaiting (sys : Sys) (s : ℕ) (fl : Filelock) : Sys :=
  { states := Function.update sys.states s (Flock.addWaiting (sys.states s) fl)
    global := if (sys.states s).type = .fcntl then globalInsert sys.global fl s else sys.global }

/-- remove_waiting on inode `s`: the global entry goes with the waiting lock found. -/
def removeWaiting (sys : Sys) (s : ℕ) (fl : Filelock) : Sys :=
  { states := Function.update sys.states s (Flock.removeWaiting (sys.states s) fl)
    global :=
      match findWaiting fl (waitingFrom (sys.states s) fl) with
      | some e => if (sys.states s).type = .fcntl then removeGlobalWaiting sys.global e.val s
          else sys.global
      | none => sys.global }

/-- remove_all_from on inode `s`: the waiting locks of the client leave the global multimap
in map order. -/
def removeAllFrom (sys : Sys) (s : ℕ) (client : ℤ) : Sys × Bool :=
  let st := sys.states s
  let gone := if (OrdMap.find? st.waitingCounts client).isSome ∧ st.type = .fcntl then
      st.waiting.filter fun e => clientKey e.val = client
    else []
  ({ states := Function.update sys.states s (Flock.removeAllFrom st client).1
     global := gone.foldl (fun g e => removeGlobalWaiting g e.val s) sys.global },
    (Flock.removeAllFrom st client).2)

def removeLock (sys : Sys) (s : ℕ) (r : Filelock) : Sys := sys.set s (Flock.removeLock (sys.states s) r)

/-- add_lock on inode `s`, with is_deadlock asked when the request would wait. -/
def addLock (sys : Sys) (s : ℕ) (nl : Filelock) (waitOnFail replay : Bool) :
    Option (Sys × Bool × Bool) :=
  let st := sys.states s
  let (ov, nb) := getOverlappingLocks st.held nl true
  let (others, self) := splitByOwner nl ov
  if others ≠ [] ∧ (nl.type = lockExcl ∨ (containsExclusiveLock others).isSome) then
    if waitOnFail ∧ ¬ replay then
      if isDeadlock sys st.type nl others none 0 then some (sys, false, true)
      else some (sys.addWaiting s nl, false, false)
    else some (sys, false, false)
  else
    let sys := sys.removeWaiting s nl
    (adjustLocks (sys.states s) self nl nb).map fun r => (sys.set s (r.1.addHeld r.2), true, false)

end Sys

@[simp] theorem Sys.addWaiting_states (sys : Sys) (s : ℕ) (fl : Filelock) :
    (sys.addWaiting s fl).states = Function.update sys.states s (Flock.addWaiting (sys.states s) fl) :=
  rfl

@[simp] theorem Sys.removeWaiting_states (sys : Sys) (s : ℕ) (fl : Filelock) :
    (sys.removeWaiting s fl).states =
      Function.update sys.states s (Flock.removeWaiting (sys.states s) fl) :=
  rfl

theorem fcntl_of_isDeadlock {sys : Sys} {type : LockRule} {fl : Filelock} {ov : List Entry}
    {firstFl : Option Filelock} {depth : ℕ} (h : isDeadlock sys type fl ov firstFl depth = true) :
    type = .fcntl := by
  simp only [isDeadlock, Bool.and_eq_true, decide_eq_true_eq] at h
  exact h.1

/-- The calls on the lock state of an inode. -/
inductive SysEvent where
  | addLock (s : ℕ) (l : Filelock) (waitOnFail replay : Bool)
  | removeLock (s : ℕ) (l : Filelock)
  | removeWaiting (s : ℕ) (l : Filelock)
  | removeAllFrom (s : ℕ) (client : ℤ)
  deriving DecidableEq, Repr

def Sys.step (sys : Sys) : SysEvent → Option Sys
  | .addLock s l w r => (sys.addLock s l w r).map (·.1)
  | .removeLock s l => some (sys.removeLock s l)
  | .removeWaiting s l => some (sys.removeWaiting s l)
  | .removeAllFrom s c => some (sys.removeAllFrom s c).1

/-- The inode an event is for. -/
def SysEvent.inode : SysEvent → ℕ
  | .addLock s .. | .removeLock s _ | .removeWaiting s _ | .removeAllFrom s _ => s

/-- The event as the lock state of its inode sees it, with is_deadlock's answer for add_lock. -/
def SysEvent.local (sys : Sys) : SysEvent → Event
  | .addLock s l w r =>
    .addLock l w r (isDeadlock sys (sys.states s).type l
      (splitByOwner l (getOverlappingLocks (sys.states s).held l true).1).1 none 0)
  | .removeLock _ l => .removeLock l
  | .removeWaiting _ l => .removeWaiting l
  | .removeAllFrom _ c => .removeAllFrom c

/-- Each inode runs the lock-state model: a system step is the step of the lock state of its
inode, with is_deadlock's answer, and leaves every other inode alone. -/
theorem Sys.step_states {sys sys' : Sys} {e : SysEvent} (h : sys.step e = some sys') :
    Flock.step (sys.states e.inode) (e.local sys) = some (sys'.states e.inode) ∧
      ∀ t ≠ e.inode, sys'.states t = sys.states t := by
  cases e with
  | addLock s l w r =>
    obtain ⟨q, hq, rfl⟩ := Option.map_eq_some_iff.mp h
    simp only [SysEvent.inode, SysEvent.local, Flock.step]
    unfold Sys.addLock at hq
    unfold Flock.addLock
    dsimp only at hq ⊢
    split_ifs at hq with h1 h2 h3
    · rw [if_pos h1, if_pos h2, if_pos ⟨fcntl_of_isDeadlock h3, h3⟩]
      cases hq
      exact ⟨rfl, fun _ _ => rfl⟩
    · rw [if_pos h1, if_pos h2, if_neg fun h => h3 h.2]
      cases hq
      exact ⟨by simp, fun t ht => by simp [ht]⟩
    · rw [if_pos h1, if_neg h2]
      cases hq
      exact ⟨rfl, fun _ _ => rfl⟩
    · rw [if_neg h1]
      obtain ⟨a, ha, rfl⟩ := Option.map_eq_some_iff.mp hq
      simp only [Sys.removeWaiting_states, Function.update_self] at ha
      refine ⟨by simp [ha], fun t ht => ?_⟩
      simp [ht]
  | removeLock s l =>
    cases h
    refine ⟨by simp [SysEvent.inode, SysEvent.local, Flock.step, Sys.removeLock], fun t ht => ?_⟩
    simp [Sys.removeLock, show t ≠ s from ht]
  | removeWaiting s l =>
    cases h
    refine ⟨by simp [SysEvent.inode, SysEvent.local, Flock.step, Sys.removeWaiting], fun t ht => ?_⟩
    simp [Sys.removeWaiting, Function.update_of_ne (show t ≠ s from ht)]
  | removeAllFrom s c =>
    cases h
    refine ⟨by simp [SysEvent.inode, SysEvent.local, Flock.step, Sys.removeAllFrom], fun t ht => ?_⟩
    simp [Sys.removeAllFrom, Function.update_of_ne (show t ≠ s from ht)]

end Lunule.Flock
