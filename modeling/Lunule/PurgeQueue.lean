import Mathlib.Data.UInt
import Lunule.OrdMap
import Lunule.Runs

/-!
The purge queue of an MDS rank (`mds/PurgeQueue.cc`). `push` writes an item to the queue's
journal; `_consume` reads entries back while `can_consume()` allows it, and `_execute_item`
charges each item's op count to `ops_in_flight` and keeps it in `in_flight` under the read
position after its entry. When the filer's operations for an item have completed,
`_execute_item_complete` uncharges its op count, computed again from the configuration of that
moment, and expires the journal up to the item's position if it is the first item in flight.

The journal is kept as the entries written and not yet read, each with the position it ends
at. Which of them the reader can read at a `_consume` is up to the journal, so each
`_consume` is given how many are readable. `ops_in_flight` is the `uint64_t` counter and the
op counts are the `uint32_t` values `_calculate_ops` returns.
-/

namespace Lunule

open OrdMap Runs

/-- The fields of `file_layout_t` that `Striper::get_num_objects` reads. -/
structure FileLayout where
  stripeUnit : ℕ
  stripeCount : ℕ
  objectSize : ℕ
  deriving DecidableEq, Repr

/-- `Striper::get_num_objects(layout, size)`. -/
def Striper.getNumObjects (layout : FileLayout) (size : ℕ) : ℕ :=
  let period := layout.stripeCount * layout.objectSize
  let numPeriods := (size + period - 1) / period
  let remainderBytes := size % period
  let remainderObjs :=
    if 0 < remainderBytes ∧ remainderBytes < layout.stripeCount * layout.stripeUnit then
      layout.stripeCount - (remainderBytes + layout.stripeUnit - 1) / layout.stripeUnit
    else 0
  numPeriods * layout.stripeCount - remainderObjs

/-- `PurgeItem::Action`; `none` stands for every value that is none of the three actions. -/
inductive PurgeItem.Action where
  | none
  | purgeFile
  | truncateFile
  | purgeDir
  deriving DecidableEq, Repr

/-- The fields of a `PurgeItem` that the queue reads. `fragLeaves` is the number of leaves
`fragtree.get_leaves` lists, `0` when the root frag is a leaf. -/
structure PurgeItem where
  action : PurgeItem.Action
  size : ℕ
  layout : FileLayout
  oldPools : ℕ
  fragLeaves : ℕ
  deriving DecidableEq, Repr

structure PurgeQueue where
  /-- Items executing, by the read position after their entry. -/
  inFlight : List (ℕ × PurgeItem)
  opsInFlight : UInt64
  maxPurgeOps : ℕ
  /-- The configuration options `filer_max_purge_ops` and `mds_max_purge_files`. -/
  filerMaxPurgeOps : ℕ
  maxPurgeFiles : ℕ
  /-- Journal entries written and not yet read, with the position each ends at. -/
  unread : List (PurgeItem × ℕ)
  writePos : ℕ
  readPos : ℕ
  expirePos : ℕ
  deriving DecidableEq, Repr

namespace PurgeQueue

/-- `_calculate_ops(item)`, with `filer_max_purge_ops` as configured when it is called. -/
def calculateOps (filerMaxPurgeOps : ℕ) (item : PurgeItem) : UInt32 :=
  if item.action = .purgeDir then
    -- one for the root, and one for each leaf
    UInt32.ofNat (1 + item.fragLeaves)
  else
    let num := if 0 < item.size then Striper.getNumObjects item.layout item.size else 1
    -- the backtrace too, and the old pools unless truncating
    let ops := UInt32.ofNat (min num filerMaxPurgeOps) + 1
    if item.action ≠ .truncateFile then ops + UInt32.ofNat item.oldPools else ops

/-- `JOURNAL_ENVELOPE_RESILIENT`: the sentinel, size and start pointer around an entry. -/
def envelopeResilient : ℕ := 20

/-- A queue recovered at `w0` with nothing to purge. -/
def init (w0 maxPurgeOps filerMaxPurgeOps maxPurgeFiles : ℕ) : PurgeQueue :=
  ⟨[], 0, maxPurgeOps, filerMaxPurgeOps, maxPurgeFiles, [], w0, w0, w0⟩

/-- `can_consume()`: always with nothing in flight unless purging is paused, otherwise while
under both the op limit and the file limit. -/
def canConsume (q : PurgeQueue) : Bool :=
  if q.inFlight.length = 0 ∧ 0 < q.maxPurgeFiles then true
  else if q.maxPurgeOps ≤ q.opsInFlight.toNat then false
  else q.inFlight.length < q.maxPurgeFiles

/-- `_execute_item(item, expire_to)`: the item goes in flight and its op count is charged. An
item of no known action is dropped again, and its charge stays. -/
def executeItem (q : PurgeQueue) (item : PurgeItem) (expireTo : ℕ) : PurgeQueue :=
  let q := { q with
    inFlight := set q.inFlight expireTo item
    opsInFlight := q.opsInFlight + (calculateOps q.filerMaxPurgeOps item).toUInt64 }
  if item.action = .none then { q with inFlight := erase q.inFlight expireTo } else q

/-- The loop of `_consume` when the first `readable` unread entries can be read: read and
execute entries while `can_consume()` holds. -/
def consume : ℕ → PurgeQueue → PurgeQueue
  | readable, q =>
    if q.canConsume then
      match readable, q.unread with
      | r + 1, (item, en) :: rest =>
        consume r (executeItem { q with unread := rest, readPos := en } item en)
      | _, _ => q
    else q

/-- `push(pi)`: the entry, `len` bytes in its envelope, is appended to the journal, and
`_consume` runs. -/
def push (q : PurgeQueue) (item : PurgeItem) (len readable : ℕ) : PurgeQueue :=
  let en := q.writePos + len + envelopeResilient
  consume readable { q with unread := q.unread ++ [(item, en)], writePos := en }

/-- `_execute_item_complete(expire_to)`: the journal expires to the item's position if it is
the first in flight; its op count, computed now, is uncharged, and it leaves `in_flight`. -/
def executeItemComplete (q : PurgeQueue) (expireTo : ℕ) : Option PurgeQueue :=
  match find? q.inFlight expireTo with
  -- `assert(in_flight.count(expire_to) == 1)`
  | none => none
  | some item =>
    some { q with
      expirePos := if q.inFlight.head?.map Prod.fst = some expireTo then expireTo else q.expirePos
      opsInFlight := q.opsInFlight - (calculateOps q.filerMaxPurgeOps item).toUInt64
      inFlight := erase q.inFlight expireTo }

/-- What happens to the queue: a `push`, a `_consume` woken by the journal, the completion of
an item's operations followed by `_consume`, a change of either option, and
`update_op_limit` setting `max_purge_ops`. -/
inductive Event where
  | push (item : PurgeItem) (len readable : ℕ)
  | consume (readable : ℕ)
  | complete (expireTo readable : ℕ)
  | setFilerMaxPurgeOps (n : ℕ)
  | setMaxPurgeFiles (n : ℕ)
  | updateOpLimit (maxPurgeOps : ℕ)
  deriving DecidableEq, Repr

def step (q : PurgeQueue) : Event → Option PurgeQueue
  | .push item len readable => some (q.push item len readable)
  | .consume readable => some (consume readable q)
  | .complete expireTo readable => (q.executeItemComplete expireTo).map (consume readable)
  | .setFilerMaxPurgeOps n => some { q with filerMaxPurgeOps := n }
  | .setMaxPurgeFiles n => some { q with maxPurgeFiles := n }
  | .updateOpLimit n => some { q with maxPurgeOps := n }

/-! ### What each operation does -/

variable {q q' : PurgeQueue} {item : PurgeItem} {en k : ℕ}

/-- Read positions only grow, so the item read goes in flight after every other. -/
theorem executeItem_eq (h : ∀ j ∈ keys q.inFlight, j < en) :
    executeItem q item en = { q with
      inFlight := if item.action = .none then q.inFlight else q.inFlight ++ [(en, item)]
      opsInFlight := q.opsInFlight + (calculateOps q.filerMaxPurgeOps item).toUInt64 } := by
  have hnot : en ∉ keys q.inFlight := fun hm => lt_irrefl _ (h en hm)
  rw [executeItem, set_eq_append item h]
  split_ifs
  · rw [erase_append_of_not_mem hnot, erase_cons_self, List.append_nil]
  · rfl

/-- What `_consume` keeps: everything that reading and executing the first unread entry
keeps. -/
theorem consume_induction (P : PurgeQueue → Prop)
    (hread : ∀ q item en rest, P q → q.unread = (item, en) :: rest →
      P (executeItem { q with unread := rest, readPos := en } item en))
    (readable : ℕ) (q : PurgeQueue) (hq : P q) : P (consume readable q) := by
  induction readable generalizing q with
  | zero =>
    unfold consume
    split_ifs <;> exact hq
  | succ r ih =>
    unfold consume
    split_ifs
    · cases hu : q.unread with
      | nil => exact hq
      | cons e rest => exact ih _ (hread q e.1 e.2 rest hq hu)
    · exact hq

theorem executeItemComplete_eq_some (h : q.executeItemComplete k = some q') :
    ∃ item, find? q.inFlight k = some item ∧ q' = { q with
      expirePos := if q.inFlight.head?.map Prod.fst = some k then k else q.expirePos
      opsInFlight := q.opsInFlight - (calculateOps q.filerMaxPurgeOps item).toUInt64
      inFlight := erase q.inFlight k } := by
  unfold executeItemComplete at h
  split at h
  · cases h
  · obtain rfl := Option.some.inj h
    exact ⟨_, ‹_›, rfl⟩

/-! ### The journal positions -/

/-- The positions of a queue: the items in flight in the order of their entries, each after
the expire position and at most the read position, and the unread entries after the read
position in the order written. -/
structure Inv (q : PurgeQueue) : Prop where
  sorted : Sorted q.inFlight
  expire_le : q.expirePos ≤ q.readPos
  flight_between : ∀ k ∈ keys q.inFlight, q.expirePos < k ∧ k ≤ q.readPos
  unread_sorted : (q.unread.map Prod.snd).Pairwise (· < ·)
  read_lt : ∀ e ∈ q.unread, q.readPos < e.2
  unread_le : ∀ e ∈ q.unread, e.2 ≤ q.writePos
  read_le : q.readPos ≤ q.writePos

theorem inv_init (w0 maxPurgeOps filerMaxPurgeOps maxPurgeFiles : ℕ) :
    Inv (init w0 maxPurgeOps filerMaxPurgeOps maxPurgeFiles) :=
  ⟨List.Pairwise.nil, le_rfl, by simp [init], List.Pairwise.nil, by simp [init], by simp [init],
    le_rfl⟩

/-- Reading the first unread entry moves the read position to its end, past every item in
flight, and puts the item in flight there. -/
theorem Inv.read {rest : List (PurgeItem × ℕ)} (h : Inv q) (hu : q.unread = (item, en) :: rest) :
    Inv (executeItem { q with unread := rest, readPos := en } item en) := by
  have hen : q.readPos < en := h.read_lt (item, en) (by simp [hu])
  have hsorted := h.unread_sorted
  rw [hu, List.map_cons, List.pairwise_cons] at hsorted
  have hlt : ∀ j ∈ keys q.inFlight, j < en := fun j hj => (h.flight_between j hj).2.trans_lt hen
  rw [executeItem_eq (q := { q with unread := rest, readPos := en }) hlt]
  constructor
  · split_ifs
    · exact h.sorted
    · exact h.sorted.append (List.pairwise_singleton _ _) (by simpa using hlt)
  · exact h.expire_le.trans hen.le
  · intro j hj
    have hj' : j ∈ keys q.inFlight ∨ j = en := by
      split_ifs at hj <;> simp_all
    rcases hj' with hj' | rfl
    · exact ⟨(h.flight_between j hj').1, (hlt j hj').le⟩
    · exact ⟨h.expire_le.trans_lt hen, le_rfl⟩
  · exact hsorted.2
  · intro e he
    exact hsorted.1 e.2 (List.mem_map_of_mem he)
  · intro e he
    exact h.unread_le e (by simp [hu, he])
  · exact h.unread_le (item, en) (by simp [hu])

theorem Inv.consume (h : Inv q) (readable : ℕ) : Inv (consume readable q) :=
  consume_induction Inv (fun _ _ _ _ hq hu => hq.read hu) readable q h

/-- The entry pushed ends after every entry written before it. -/
theorem Inv.appendEntry (h : Inv q) (item : PurgeItem) (len : ℕ) :
    Inv { q with
      unread := q.unread ++ [(item, q.writePos + len + envelopeResilient)]
      writePos := q.writePos + len + envelopeResilient } := by
  have hw : q.writePos < q.writePos + len + envelopeResilient := by
    unfold envelopeResilient
    omega
  refine ⟨h.sorted, h.expire_le, h.flight_between, ?_, ?_, ?_, ?_⟩
  · rw [List.map_append, List.pairwise_append]
    refine ⟨h.unread_sorted, List.pairwise_singleton _ _, ?_⟩
    simp only [List.map_cons, List.map_nil, List.mem_singleton, forall_eq, List.mem_map]
    rintro _ ⟨e, he, rfl⟩
    exact (h.unread_le e he).trans_lt hw
  · simp only [List.mem_append, List.mem_singleton]
    rintro e (he | rfl)
    · exact h.read_lt e he
    · exact h.read_le.trans_lt hw
  · simp only [List.mem_append, List.mem_singleton]
    rintro e (he | rfl)
    · exact (h.unread_le e he).trans hw.le
    · exact le_rfl
  · exact h.read_le.trans hw.le

theorem Inv.push (h : Inv q) (item : PurgeItem) (len readable : ℕ) :
    Inv (q.push item len readable) :=
  (h.appendEntry item len).consume readable

/-- A completion expires the journal only to the first item in flight, and every other item
is after it. -/
theorem Inv.executeItemComplete (h : Inv q) (hc : q.executeItemComplete k = some q') : Inv q' := by
  obtain ⟨item, hk, rfl⟩ := executeItemComplete_eq_some hc
  have hkr : k ≤ q.readPos := (h.flight_between k (mem_keys_of_find? hk)).2
  refine ⟨h.sorted.erase k, ?_, ?_, h.unread_sorted, h.read_lt, h.unread_le, h.read_le⟩
  · dsimp only
    split_ifs
    · exact hkr
    · exact h.expire_le
  · intro j hj
    obtain ⟨hjk, hj⟩ := (mem_keys_erase h.sorted.nodup k j).1 hj
    refine ⟨?_, (h.flight_between j hj).2⟩
    dsimp only
    split_ifs with hhead
    · exact h.sorted.head_lt hhead hj hjk
    · exact (h.flight_between j hj).1

theorem Inv.step (h : Inv q) {e : Event} (hs : step q e = some q') : Inv q' := by
  cases e with
  | push item len readable =>
    cases hs
    exact h.push item len readable
  | consume readable =>
    cases hs
    exact h.consume readable
  | complete expireTo readable =>
    obtain ⟨q₁, hc, rfl⟩ := Option.map_eq_some_iff.1 hs
    exact (h.executeItemComplete hc).consume readable
  | setFilerMaxPurgeOps n =>
    cases hs
    exact ⟨h.1, h.2, h.3, h.4, h.5, h.6, h.7⟩
  | setMaxPurgeFiles n =>
    cases hs
    exact ⟨h.1, h.2, h.3, h.4, h.5, h.6, h.7⟩
  | updateOpLimit n =>
    cases hs
    exact ⟨h.1, h.2, h.3, h.4, h.5, h.6, h.7⟩

/-- Over every run, the journal never expires past an item still in flight, nor past what has
been read. -/
theorem expirePos_lt_inFlight {w0 maxPurgeOps filerMaxPurgeOps maxPurgeFiles : ℕ}
    (es : List Event) (hrun : run step (init w0 maxPurgeOps filerMaxPurgeOps maxPurgeFiles) es = some q) :
    q.expirePos ≤ q.readPos ∧ ∀ k ∈ keys q.inFlight, q.expirePos < k := by
  have h := run_invariant step Inv (fun _ _ _ hq hs => hq.step hs) es _ q (inv_init ..) hrun
  exact ⟨h.expire_le, fun k hk => (h.flight_between k hk).1⟩

/-! ### The op count in flight -/

/-- The op counts of the items in flight, as `_calculate_ops` computes them now. -/
def charges (q : PurgeQueue) : UInt64 :=
  (q.inFlight.map fun p => (calculateOps q.filerMaxPurgeOps p.2).toUInt64).sum

/-- Events that push no item of an unknown action and leave `filer_max_purge_ops` alone. -/
def Event.KeepsCharges : Event → Prop
  | .push item _ _ => item.action ≠ .none
  | .setFilerMaxPurgeOps _ => False
  | _ => True

/-- The count in flight is the sum of the op counts of the items in flight, and no item of an
unknown action is waiting to be read. -/
structure Charged (q : PurgeQueue) : Prop where
  inv : Inv q
  ops_eq : q.opsInFlight = q.charges
  unread_valid : ∀ e ∈ q.unread, e.1.action ≠ .none

theorem Charged.read {rest : List (PurgeItem × ℕ)} (h : Charged q)
    (hu : q.unread = (item, en) :: rest) :
    Charged (executeItem { q with unread := rest, readPos := en } item en) := by
  have hen : q.readPos < en := h.inv.read_lt (item, en) (by simp [hu])
  have hlt : ∀ j ∈ keys q.inFlight, j < en :=
    fun j hj => (h.inv.flight_between j hj).2.trans_lt hen
  have hvalid : item.action ≠ .none := h.unread_valid (item, en) (by simp [hu])
  refine ⟨h.inv.read hu, ?_, ?_⟩
  · rw [executeItem_eq (q := { q with unread := rest, readPos := en }) hlt, if_neg hvalid]
    simp [charges, h.ops_eq]
  · rw [executeItem_eq (q := { q with unread := rest, readPos := en }) hlt]
    exact fun e he => h.unread_valid e (by simp [hu, he])

theorem Charged.executeItemComplete (h : Charged q) (hc : q.executeItemComplete k = some q') :
    Charged q' := by
  have hinv := h.inv.executeItemComplete hc
  obtain ⟨item, hk, rfl⟩ := executeItemComplete_eq_some hc
  refine ⟨hinv, ?_, h.unread_valid⟩
  have hsum := sum_erase (fun v => (calculateOps q.filerMaxPurgeOps v).toUInt64) hk
  rw [h.ops_eq, charges, hsum, charges]
  exact add_sub_cancel_left _ _

theorem Charged.step (h : Charged q) {e : Event} (he : e.KeepsCharges) (hs : step q e = some q') :
    Charged q' := by
  cases e with
  | push item len readable =>
    cases hs
    apply consume_induction Charged (fun _ _ _ _ hq hu => hq.read hu)
    refine ⟨h.inv.appendEntry item len, h.ops_eq, ?_⟩
    simp only [List.mem_append, List.mem_singleton]
    rintro e (he' | rfl)
    · exact h.unread_valid e he'
    · exact he
  | consume readable =>
    cases hs
    exact consume_induction Charged (fun _ _ _ _ hq hu => hq.read hu) readable q h
  | complete expireTo readable =>
    obtain ⟨q₁, hc, rfl⟩ := Option.map_eq_some_iff.1 hs
    exact consume_induction Charged (fun _ _ _ _ hq hu => hq.read hu) readable q₁
      (h.executeItemComplete hc)
  | setFilerMaxPurgeOps n => exact he.elim
  | setMaxPurgeFiles n =>
    cases hs
    exact ⟨h.inv.step (e := .setMaxPurgeFiles n) rfl, h.ops_eq, h.unread_valid⟩
  | updateOpLimit n =>
    cases hs
    exact ⟨h.inv.step (e := .updateOpLimit n) rfl, h.ops_eq, h.unread_valid⟩

/-- Over a run that pushes only items of a known action and never changes
`filer_max_purge_ops`, the count in flight is the sum of the op counts of the items in
flight. -/
theorem opsInFlight_eq_charges {w0 maxPurgeOps filerMaxPurgeOps maxPurgeFiles : ℕ}
    (es : List Event) (hes : ∀ e ∈ es, e.KeepsCharges)
    (hrun : run step (init w0 maxPurgeOps filerMaxPurgeOps maxPurgeFiles) es = some q) :
    q.opsInFlight = q.charges := by
  have h₀ : Charged (init w0 maxPurgeOps filerMaxPurgeOps maxPurgeFiles) :=
    ⟨inv_init .., rfl, by simp [init]⟩
  exact (run_invariant_of_forall step Charged Event.KeepsCharges
    (fun _ _ _ hq he hs => hq.step he hs) es _ q h₀ hes hrun).ops_eq

/-! ### Where the accounting breaks -/

/-- A file of ten 4-byte objects, and an item of no known action. -/
def tenObjects : PurgeItem := ⟨.purgeFile, 40, ⟨4, 1, 4⟩, 0, 0⟩

def noAction : PurgeItem := ⟨.none, 0, ⟨4, 1, 4⟩, 0, 0⟩

/-- From a queue at 0 that allows 100 ops, 2 filer ops an item and 10 files: an item of no
known action leaves 2 ops charged with nothing in flight; a file admitted at 3 ops and
completed after `filer_max_purge_ops` rose to 10 leaves the count wrapped to `2^64 - 8`; and of
two files, the second completed first, the journal expires only to the first file's end at 30
with nothing in flight and 60 read. -/
theorem purge_accounting_diverges :
    (run step (init 0 100 2 10) [.push noAction 10 1]).map
        (fun q => (q.inFlight, q.opsInFlight)) = some ([], 2) ∧
      (run step (init 0 100 2 10)
          [.push tenObjects 10 1, .setFilerMaxPurgeOps 10, .complete 30 0]).map
        (fun q => (q.inFlight, q.opsInFlight)) = some ([], 18446744073709551608) ∧
      (run step (init 0 100 2 10)
          [.push tenObjects 10 1, .push tenObjects 10 1, .complete 60 0, .complete 30 0]).map
        (fun q => (q.inFlight, q.readPos, q.expirePos)) = some ([], 60, 30) := by
  refine ⟨?_, ?_, ?_⟩ <;> decide

end PurgeQueue

end Lunule
