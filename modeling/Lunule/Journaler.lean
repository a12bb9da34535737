import Mathlib.Algebra.Group.Nat.Defs
import Mathlib.Algebra.Order.Group.Nat
import Mathlib.Data.List.TakeWhile
import Lunule.OrdMap
import Lunule.Runs

/-!
The write path of the `Journaler` of `osdc/Journaler.cc`: `append_entry`, `_do_flush`
with its prezero clamp and the best-effort `next_safe_pos`, `_issue_prezero`, `_flush`,
`_wait_for_flush`, the completions `_finish_flush` and `_finish_prezero` that the filer
delivers in any order, and the tail trim `_trim` / `_finish_trim`.

Positions are byte offsets in the journal; `write_buf` is kept as its length. The
state is grouped into the write path, the prezero bookkeeping and the trim
bookkeeping; each group also holds the filer's requests that are in flight, keyed by
their start as the completion contexts carry it. The write path keeps three more
lists that the source does not: the acknowledged writes, the entry boundaries, and
each waiter context with the position it waits for, so that what `safe_pos` means can
be stated. Callback contexts are numbered. An `assert` that fails is `none`.
-/

namespace Lunule.Journaler

open OrdMap Runs

/-- The layout period (`get_layout_period()`) and `journaler_prezero_periods`; the
period is positive, which `append_entry` asserts. -/
structure Config where
  period : ℕ
  prezeroPeriods : ℕ
  period_pos : 0 < period

structure WriteState where
  writePos : ℕ
  flushPos : ℕ
  safePos : ℕ
  nextSafePos : ℕ
  writeBuf : ℕ
  pendingSafe : List (ℕ × ℕ)
  waitforSafe : List (ℕ × List ℕ)
  /-- Writes issued by `_do_flush` and not yet acknowledged: start and length. -/
  writes : List (ℕ × ℕ)
  /-- Writes whose completion has arrived. -/
  done : List (ℕ × ℕ)
  /-- The journal start and the end of every appended entry. -/
  bounds : List ℕ
  /-- Each context of `_wait_for_flush` with the `write_pos` it was given. -/
  waiters : List (ℕ × ℕ)
  completed : List ℕ
  nextContext : ℕ
  deriving DecidableEq, Repr

structure PrezeroState where
  prezeroPos : ℕ
  prezeroingPos : ℕ
  pendingZero : List (ℕ × ℕ)
  waitingForZeroPos : ℕ
  /-- Zero requests in flight: start and length. -/
  zeroes : List (ℕ × ℕ)
  deriving DecidableEq, Repr

structure TrimState where
  expirePos : ℕ
  trimmingPos : ℕ
  trimmedPos : ℕ
  /-- Purges in flight, by their target. -/
  trims : List ℕ
  deriving DecidableEq, Repr

set_option linter.dupNamespace false in
structure Journaler where
  log : WriteState
  zero : PrezeroState
  tail : TrimState
  deriving DecidableEq, Repr

/-- A journal opened at `w0`, trimmed to `t0`, with `expire_pos` at `e0`, as
`_finish_read_head` leaves it. -/
def init (w0 t0 e0 : ℕ) : Journaler where
  log := ⟨w0, w0, w0, w0, 0, [], [], [], [], [w0], [], [], 0⟩
  zero := ⟨w0, w0, [], 0, []⟩
  tail := ⟨e0, t0, t0, []⟩

namespace WriteState

/-- The bytes of one entry enter `write_buf`. -/
def appended (l : WriteState) (wrote : ℕ) : WriteState :=
  { l with writePos := l.writePos + wrote, writeBuf := l.writeBuf + wrote,
           bounds := l.bounds ++ [l.writePos + wrote] }

/-- The `waitfor_safe` key `_do_flush` looks at for a flush ending at `x`: the one
`lower_bound(x)` finds, stepped back once when it lies past `x` and is not the first. -/
def boundaryKey (waitforSafe : List (ℕ × List ℕ)) (x : ℕ) : Option ℕ :=
  match waitforSafe.dropWhile (fun p => decide (p.1 < x)) with
  | [] => none
  | p :: _ =>
    match (waitforSafe.takeWhile fun p => decide (p.1 < x)).getLast? with
    | some q => if x < p.1 then some q.1 else some p.1
    | none => some p.1

/-- The best-effort `next_safe_pos` after a partial flush ending at `x`. -/
def partialSafePos (waitforSafe : List (ℕ × List ℕ)) (x nextSafePos : ℕ) : ℕ :=
  match boundaryKey waitforSafe x with
  | none => nextSafePos
  | some k => if k ≤ x ∧ nextSafePos < k then k else nextSafePos

/-- What `_do_flush` does to the write path once it has fixed `len`: record
`next_safe_pos` for the write, hand the first `len` bytes of `write_buf` to the
filer, and advance `flush_pos`. -/
def flushed (l : WriteState) (len : ℕ) : WriteState :=
  { l with pendingSafe := set l.pendingSafe l.flushPos l.nextSafePos,
           writeBuf := l.writeBuf - len,
           nextSafePos := if len = l.writeBuf then l.writePos
             else partialSafePos l.waitforSafe (l.flushPos + len) l.nextSafePos,
           writes := set l.writes l.flushPos len,
           flushPos := l.flushPos + len }

/-- What `_finish_flush` does for the write at `start`: drop it from `pending_safe`,
take `safe_pos` from the first write still pending, and complete the waiters up to it. -/
def acked (l : WriteState) (start len : ℕ) : WriteState :=
  let ps := erase l.pendingSafe start
  let safe := (ps.head?.map Prod.snd).getD l.nextSafePos
  { l with pendingSafe := ps, safePos := safe,
           waitforSafe := l.waitforSafe.dropWhile fun p => decide (p.1 ≤ safe),
           completed := l.completed ++
             (l.waitforSafe.takeWhile fun p => decide (p.1 ≤ safe)).flatMap Prod.snd,
           writes := erase l.writes start,
           done := l.done ++ [(start, len)] }

/-- `_wait_for_flush` with a context: complete it at once when everything is safe,
otherwise queue it under `write_pos`. -/
def waited (l : WriteState) : Option WriteState :=
  let c := l.nextContext
  let l := { l with nextContext := c + 1, waiters := l.waiters ++ [(c, l.writePos)] }
  if l.writePos = l.safePos then
    if l.writeBuf = 0 then some { l with completed := l.completed ++ [c] } else none
  else
    let queued := (find? l.waitforSafe l.writePos).getD [] ++ [c]
    some { l with waitforSafe := set l.waitforSafe l.writePos queued }

end WriteState

/-- The zero requests `_issue_prezero` sends from `pos` up to `target`, a period (or
the rest of one) at a time, and where `prezeroing_pos` ends. Each pass advances by at
least one byte, so `target - pos` passes are enough. -/
def zeroRequests (period : ℕ) : ℕ → ℕ → ℕ → List (ℕ × ℕ) × ℕ
  | 0, pos, _ => ([], pos)
  | fuel + 1, pos, target =>
    if pos < target then
      let len := if pos % period = 0 then period else period - pos % period
      let r := zeroRequests period fuel (pos + len) target
      ((pos, len) :: r.1, r.2)
    else ([], pos)

def issuePrezero (cfg : Config) (j : Journaler) : Option Journaler :=
  if j.zero.prezeroingPos < j.log.flushPos then none
  else
    let numPeriods := max 2 cfg.prezeroPeriods
    let target := j.log.writePos + cfg.period * numPeriods + cfg.period - 1
    let target := target - target % cfg.period
    if target ≤ j.zero.prezeroingPos then some j
    else
      let r := zeroRequests cfg.period (target - j.zero.prezeroingPos) j.zero.prezeroingPos target
      some { j with zero := { j.zero with zeroes := j.zero.zeroes ++ r.1, prezeroingPos := r.2 } }

/-- The second half of `_do_flush`: the write of `len` bytes and the prezero after it. -/
def issueWrite (cfg : Config) (j : Journaler) (len : ℕ) : Option Journaler :=
  let l := j.log.flushed len
  if l.writeBuf = l.writePos - l.flushPos then issuePrezero cfg { j with log := l } else none

def doFlush (cfg : Config) (j : Journaler) (amount : ℕ) : Option Journaler :=
  if j.log.writePos = j.log.flushPos then some j
  else if j.log.writePos < j.log.flushPos then none
  else if j.log.writePos - j.log.flushPos ≠ j.log.writeBuf then none
  else
    let len := j.log.writePos - j.log.flushPos
    let len := if amount ≠ 0 ∧ amount < len then amount else len
    -- zero at least two full periods ahead of what is written
    if j.zero.prezeroPos < j.log.flushPos + len + 2 * cfg.period then
      (issuePrezero cfg j).bind fun j =>
        let newlen : ℤ := (j.zero.prezeroPos : ℤ) - j.log.flushPos - cfg.period
        let waiting := { j with zero := { j.zero with waitingForZeroPos := j.log.flushPos + len } }
        if newlen ≤ 0 then some waiting
        else if newlen.toNat < len then issueWrite cfg waiting newlen.toNat
        else issueWrite cfg j len
    else issueWrite cfg j len

def appendEntry (cfg : Config) (j : Journaler) (wrote : ℕ) : Option Journaler :=
  let j := { j with log := j.log.appended wrote }
  let writeOff := j.log.writePos % cfg.period
  if j.log.writePos / cfg.period ≠ j.log.flushPos / cfg.period then
    (doFlush cfg j (j.log.writeBuf - writeOff)).map fun j' =>
      -- the unflushed bytes lie within this entry: the previous one ends safely
      if 0 < j'.log.writeBuf ∧ j'.log.writeBuf ≤ wrote then
        { j' with log := { j'.log with nextSafePos := j'.log.writePos - wrote } }
      else j'
  else some j

def waitForFlush (j : Journaler) (onsafe : Bool) : Option Journaler :=
  if onsafe then (j.log.waited).map fun l => { j with log := l }
  else if j.log.writePos = j.log.safePos ∧ j.log.writeBuf ≠ 0 then none
  else some j

/-- `_flush`: with nothing unflushed the context completes at once; otherwise flush
everything and wait. -/
def flush (cfg : Config) (j : Journaler) (onsafe : Bool) : Option Journaler :=
  if j.log.writePos = j.log.flushPos then
    if j.log.writeBuf ≠ 0 then none
    else if onsafe then
      let c := j.log.nextContext
      some { j with log := { j.log with nextContext := c + 1, completed := j.log.completed ++ [c] } }
    else some j
  else (doFlush cfg j 0).bind fun j => waitForFlush j onsafe

def finishFlush (j : Journaler) (start : ℕ) : Option Journaler :=
  match find? j.log.writes start with
  | none => none
  | some len =>
    if j.log.flushPos ≤ start then none
    else if (find? j.log.pendingSafe start).isNone then none
    else some { j with log := j.log.acked start len }

/-- Advance `prezero_pos` over the zeroed ranges that now follow it. -/
def popZeroes : ℕ → List (ℕ × ℕ) → ℕ × List (ℕ × ℕ)
  | pos, [] => (pos, [])
  | pos, (s, len) :: rest => if s = pos then popZeroes (pos + len) rest else (pos, (s, len) :: rest)

def finishPrezero (cfg : Config) (j : Journaler) (start : ℕ) : Option Journaler :=
  match find? j.zero.zeroes start with
  | none => none
  | some len =>
    let z := { j.zero with zeroes := erase j.zero.zeroes start }
    if start = z.prezeroPos then
      let r := popZeroes (start + len) z.pendingZero
      let j := { j with zero := { z with prezeroPos := r.1, pendingZero := r.2 } }
      if j.log.flushPos < j.zero.waitingForZeroPos then
        doFlush cfg j (j.zero.waitingForZeroPos - j.log.flushPos)
      else some j
    else some { j with zero := { z with pendingZero := insert z.pendingZero start len } }

/-- `_trim`, given the `expire_pos` of the last committed head. -/
def trim (cfg : Config) (j : Journaler) (committed : ℕ) : Option Journaler :=
  let t := j.tail
  let trimTo := committed - committed % cfg.period
  if trimTo = 0 ∨ trimTo = t.trimmingPos then some j
  else if t.trimmedPos < t.trimmingPos then some j
  else if trimTo ≤ j.log.writePos ∧ trimTo ≤ t.expirePos ∧ t.trimmingPos < trimTo then
    some { j with tail := { t with trims := t.trims ++ [trimTo], trimmingPos := trimTo } }
  else none

def finishTrim (j : Journaler) (trimTo : ℕ) : Option Journaler :=
  let t := j.tail
  if trimTo ∉ t.trims then none
  else if trimTo ≤ t.trimmingPos ∧ t.trimmedPos < trimTo then
    some { j with tail := { t with trims := t.trims.erase trimTo, trimmedPos := trimTo } }
  else none

inductive Event where
  | appendEntry (wrote : ℕ)
  | flush (onsafe : Bool)
  | waitForFlush (onsafe : Bool)
  | finishFlush (start : ℕ)
  | finishPrezero (start : ℕ)
  | trim (committed : ℕ)
  | finishTrim (trimTo : ℕ)
  | setExpirePos (ep : ℕ)
  | setTrimmedPos (p : ℕ)
  deriving DecidableEq, Repr

def step (cfg : Config) (j : Journaler) : Event → Option Journaler
  | .appendEntry wrote => appendEntry cfg j wrote
  | .flush onsafe => flush cfg j onsafe
  | .waitForFlush onsafe => waitForFlush j onsafe
  | .finishFlush start => finishFlush j start
  | .finishPrezero start => finishPrezero cfg j start
  | .trim committed => trim cfg j committed
  | .finishTrim trimTo => finishTrim j trimTo
  | .setExpirePos ep => some { j with tail := { j.tail with expirePos := ep } }
  | .setTrimmedPos p => some { j with tail := { j.tail with trimmingPos := p, trimmedPos := p } }

namespace WriteState

theorem boundaryKey_mem {wf : List (ℕ × List ℕ)} {x k : ℕ} (h : boundaryKey wf x = some k) :
    ∃ p ∈ wf, p.1 = k := by
  unfold boundaryKey at h
  split at h
  · cases h
  · rename_i p rest hdrop
    have hp : p ∈ wf := (List.dropWhile_sublist _).subset (hdrop ▸ List.mem_cons_self)
    split at h
    · rename_i q hq
      have hq' : q ∈ wf := (List.takeWhile_sublist _).subset (List.mem_of_getLast? hq)
      split_ifs at h
      · exact ⟨q, hq', Option.some.inj h⟩
      · exact ⟨p, hp, Option.some.inj h⟩
    · exact ⟨p, hp, Option.some.inj h⟩

/-- A partial flush keeps `next_safe_pos`, or raises it to a `waitfor_safe` key within
the flushed range. -/
theorem partialSafePos_cases (wf : List (ℕ × List ℕ)) (x n : ℕ) :
    partialSafePos wf x n = n ∨
      (n < partialSafePos wf x n ∧ partialSafePos wf x n ≤ x ∧
        ∃ p ∈ wf, p.1 = partialSafePos wf x n) := by
  unfold partialSafePos
  split
  · exact Or.inl rfl
  · rename_i k hk
    split_ifs with hlt
    · exact Or.inr ⟨hlt.2, hlt.1, boundaryKey_mem hk⟩
    · exact Or.inl rfl

end WriteState

section Invariant

variable {w0 : ℕ} {l : WriteState}

/-- The positions and the writes in flight of a journal opened at `w0`. -/
structure PosInv (w0 : ℕ) (l : WriteState) : Prop where
  safe_le_next : l.safePos ≤ l.nextSafePos
  next_le_flush : l.nextSafePos ≤ l.flushPos
  flush_le_write : l.flushPos ≤ l.writePos
  buf_eq : l.writeBuf = l.writePos - l.flushPos
  /-- `pending_safe` has an entry for exactly the writes in flight. -/
  keys_pending : keys l.pendingSafe = keys l.writes
  writes_sorted : Sorted l.writes
  writes_below : ∀ w ∈ l.writes, 0 < w.2 ∧ w.1 + w.2 ≤ l.flushPos
  pending_vals : ∀ p ∈ l.pendingSafe,
    l.safePos ≤ p.2 ∧ p.2 ≤ l.nextSafePos ∧ p.2 ≤ p.1 ∧ p.2 ∈ l.bounds
  vals_mono : (l.pendingSafe.map Prod.snd).Pairwise (· ≤ ·)
  /-- The writes issued so far tile the journal from `w0` up to `flush_pos`. -/
  tiled : ∀ x, w0 ≤ x → x < l.flushPos → ∃ w ∈ l.done ++ l.writes, w.1 ≤ x ∧ x < w.1 + w.2
  safe_bound : l.safePos ∈ l.bounds
  next_bound : l.nextSafePos ∈ l.bounds
  write_bound : l.writePos ∈ l.bounds

/-- The waiters of `_wait_for_flush` against the safe position `safe`. -/
structure WaitInv (safe : ℕ) (l : WriteState) : Prop where
  sorted : Sorted l.waitforSafe
  keys_bound : ∀ p ∈ l.waitforSafe, safe < p.1 ∧ p.1 ≤ l.writePos ∧ p.1 ∈ l.bounds
  queued_waiter : ∀ p ∈ l.waitforSafe, ∀ c ∈ p.2, (c, p.1) ∈ l.waiters
  waiter_queued : ∀ w ∈ l.waiters, w.1 ∉ l.completed →
    ∃ p ∈ l.waitforSafe, p.1 = w.2 ∧ w.1 ∈ p.2
  completed_iff : ∀ w ∈ l.waiters, w.1 ∈ l.completed ↔ w.2 ≤ safe
  waiters_fresh : ∀ w ∈ l.waiters, w.1 < l.nextContext
  completed_fresh : ∀ c ∈ l.completed, c < l.nextContext
  waiters_nodup : (l.waiters.map Prod.fst).Nodup

structure LogInv (w0 : ℕ) (l : WriteState) : Prop where
  pos : PosInv w0 l
  wait : WaitInv l.safePos l

theorem logInv_init (w0 t0 e0 : ℕ) : LogInv w0 (init w0 t0 e0).log := by
  refine ⟨⟨?_, ?_, ?_, ?_, ?_, ?_, ?_, ?_, ?_, ?_, ?_, ?_, ?_⟩,
    ⟨?_, ?_, ?_, ?_, ?_, ?_, ?_, ?_⟩⟩ <;> simp [init, Sorted]

/-- Every byte below `safe_pos` lies in a write whose completion has arrived: a write
still in flight starts at or above the `next_safe_pos` recorded for it, which is at
least `safe_pos`. -/
theorem PosInv.safe_done (h : PosInv w0 l) (x : ℕ) (hx : w0 ≤ x) (hlt : x < l.safePos) :
    ∃ w ∈ l.done, w.1 ≤ x ∧ x < w.1 + w.2 := by
  have hflush : x < l.flushPos := by
    have := h.safe_le_next; have := h.next_le_flush; omega
  obtain ⟨w, hw, hcov⟩ := h.tiled x hx hflush
  rcases List.mem_append.mp hw with hd | hf
  · exact ⟨w, hd, hcov⟩
  · have hk : w.1 ∈ keys l.pendingSafe := h.keys_pending ▸ List.mem_map_of_mem hf
    obtain ⟨p, hp, hpk⟩ := List.mem_map.mp hk
    have hv := h.pending_vals p hp
    omega

/-- `PosInv` reads neither the waiters nor the contexts. -/
theorem PosInv.waiters (h : PosInv w0 l) (wf : List (ℕ × List ℕ)) (ws : List (ℕ × ℕ))
    (cs : List ℕ) (n : ℕ) :
    PosInv w0 { l with waitforSafe := wf, waiters := ws, completed := cs, nextContext := n } where
  safe_le_next := h.safe_le_next
  next_le_flush := h.next_le_flush
  flush_le_write := h.flush_le_write
  buf_eq := h.buf_eq
  keys_pending := h.keys_pending
  writes_sorted := h.writes_sorted
  writes_below := h.writes_below
  pending_vals := h.pending_vals
  vals_mono := h.vals_mono
  tiled := h.tiled
  safe_bound := h.safe_bound
  next_bound := h.next_bound
  write_bound := h.write_bound

/-- `WaitInv` survives any change that keeps the waiters, lets `write_pos` grow and keeps
every entry boundary. -/
theorem WaitInv.mono {s : ℕ} (h : WaitInv s l) {l' : WriteState}
    (hwf : l'.waitforSafe = l.waitforSafe) (hw : l'.waiters = l.waiters)
    (hc : l'.completed = l.completed) (hn : l'.nextContext = l.nextContext)
    (hwrite : l.writePos ≤ l'.writePos) (hb : l.bounds ⊆ l'.bounds) : WaitInv s l' where
  sorted := hwf ▸ h.sorted
  keys_bound p hp := by
    obtain ⟨h1, h2, h3⟩ := h.keys_bound p (hwf ▸ hp)
    exact ⟨h1, h2.trans hwrite, hb h3⟩
  queued_waiter p hp c hc' := hw ▸ h.queued_waiter p (hwf ▸ hp) c hc'
  waiter_queued w hw' hnc := hwf ▸ h.waiter_queued w (hw ▸ hw') (hc ▸ hnc)
  completed_iff w hw' := hc ▸ h.completed_iff w (hw ▸ hw')
  waiters_fresh w hw' := hn ▸ h.waiters_fresh w (hw ▸ hw')
  completed_fresh c hc' := hn ▸ h.completed_fresh c (hc ▸ hc')
  waiters_nodup := hw ▸ h.waiters_nodup

theorem PosInv.appended (h : PosInv w0 l) (wrote : ℕ) : PosInv w0 (l.appended wrote) where
  safe_le_next := h.safe_le_next
  next_le_flush := h.next_le_flush
  flush_le_write := by
    show l.flushPos ≤ l.writePos + wrote
    have := h.flush_le_write
    omega
  buf_eq := by
    show l.writeBuf + wrote = l.writePos + wrote - l.flushPos
    have := h.flush_le_write
    have := h.buf_eq
    omega
  keys_pending := h.keys_pending
  writes_sorted := h.writes_sorted
  writes_below := h.writes_below
  pending_vals p hp := by
    obtain ⟨h1, h2, h3, h4⟩ := h.pending_vals p hp
    exact ⟨h1, h2, h3, List.mem_append_left _ h4⟩
  vals_mono := h.vals_mono
  tiled := h.tiled
  safe_bound := List.mem_append_left _ h.safe_bound
  next_bound := List.mem_append_left _ h.next_bound
  write_bound := List.mem_append_right _ (List.mem_singleton_self _)

theorem LogInv.appended (h : LogInv w0 l) (wrote : ℕ) : LogInv w0 (l.appended wrote) :=
  ⟨h.pos.appended wrote,
    h.wait.mono rfl rfl rfl rfl (Nat.le_add_right _ _) fun _ hb => List.mem_append_left _ hb⟩

/-- After a flush of `len` bytes, `next_safe_pos` has not dropped, lies within what
is flushed, and is an entry boundary. -/
theorem LogInv.flushed_next (h : LogInv w0 l) (len : ℕ) :
    l.nextSafePos ≤ (l.flushed len).nextSafePos ∧
      (l.flushed len).nextSafePos ≤ l.flushPos + len ∧
      (l.flushed len).nextSafePos ∈ l.bounds := by
  have hnf := h.pos.next_le_flush
  have hbuf := h.pos.buf_eq
  have hfw := h.pos.flush_le_write
  simp only [WriteState.flushed]
  split_ifs with hfull
  · exact ⟨by omega, by omega, h.pos.write_bound⟩
  · rcases WriteState.partialSafePos_cases l.waitforSafe (l.flushPos + len) l.nextSafePos with
      heq | ⟨hgt, hle', p, hp, hpk⟩
    · rw [heq]
      exact ⟨le_rfl, by omega, h.pos.next_bound⟩
    · exact ⟨hgt.le, hle', hpk ▸ (h.wait.keys_bound p hp).2.2⟩

theorem PosInv.flushed (h : LogInv w0 l) {len : ℕ} (hlen : 0 < len) (hle : len ≤ l.writeBuf) :
    PosInv w0 (l.flushed len) := by
  have hp := h.pos
  obtain ⟨hn1, hn2, hn3⟩ := h.flushed_next len
  have habove : ∀ k ∈ keys l.writes, k < l.flushPos := by
    intro k hk
    obtain ⟨w, hw, rfl⟩ := List.mem_map.mp hk
    have := hp.writes_below w hw
    omega
  have hps : set l.pendingSafe l.flushPos l.nextSafePos =
      l.pendingSafe ++ [(l.flushPos, l.nextSafePos)] :=
    set_eq_append _ (hp.keys_pending ▸ habove)
  have hws : set l.writes l.flushPos len = l.writes ++ [(l.flushPos, len)] :=
    set_eq_append _ habove
  refine ⟨hp.safe_le_next.trans hn1, hn2, ?_, ?_, ?_, hp.writes_sorted.set _ _, ?_, ?_, ?_, ?_,
    hp.safe_bound, hn3, hp.write_bound⟩
  · show l.flushPos + len ≤ l.writePos
    have := hp.buf_eq
    have := hp.flush_le_write
    omega
  · show l.writeBuf - len = l.writePos - (l.flushPos + len)
    have := hp.buf_eq
    omega
  · show keys (set l.pendingSafe l.flushPos l.nextSafePos) = keys (set l.writes l.flushPos len)
    rw [hps, hws, keys_append, keys_append, hp.keys_pending]
    rfl
  · show ∀ w ∈ set l.writes l.flushPos len, 0 < w.2 ∧ w.1 + w.2 ≤ l.flushPos + len
    intro w hw
    rcases mem_set hw with rfl | hw'
    · exact ⟨hlen, le_rfl⟩
    · have := hp.writes_below w hw'
      omega
  · show ∀ p ∈ set l.pendingSafe l.flushPos l.nextSafePos, l.safePos ≤ p.2 ∧
      p.2 ≤ (l.flushed len).nextSafePos ∧ p.2 ≤ p.1 ∧ p.2 ∈ l.bounds
    intro p hp'
    rcases mem_set hp' with rfl | hp'
    · exact ⟨hp.safe_le_next, hn1, hp.next_le_flush, hp.next_bound⟩
    · obtain ⟨h1, h2, h3, h4⟩ := hp.pending_vals p hp'
      exact ⟨h1, h2.trans hn1, h3, h4⟩
  · show ((set l.pendingSafe l.flushPos l.nextSafePos).map Prod.snd).Pairwise (· ≤ ·)
    rw [hps, List.map_append, List.pairwise_append]
    refine ⟨hp.vals_mono, List.pairwise_singleton _ _, ?_⟩
    intro a ha b hb
    obtain ⟨q, hq, rfl⟩ := List.mem_map.mp ha
    rw [List.map_singleton, List.mem_singleton] at hb
    exact hb ▸ (hp.pending_vals q hq).2.1
  · show ∀ x, w0 ≤ x → x < l.flushPos + len →
      ∃ w ∈ l.done ++ set l.writes l.flushPos len, w.1 ≤ x ∧ x < w.1 + w.2
    intro x hx hlt
    rw [hws, ← List.append_assoc]
    by_cases hx' : x < l.flushPos
    · obtain ⟨w, hw, hc⟩ := hp.tiled x hx hx'
      exact ⟨w, List.mem_append_left _ hw, hc⟩
    · exact ⟨(l.flushPos, len), List.mem_append_right _ (List.mem_singleton_self _), by
        simp only
        omega⟩

theorem LogInv.flushed (h : LogInv w0 l) {len : ℕ} (hlen : 0 < len) (hle : len ≤ l.writeBuf) :
    LogInv w0 (l.flushed len) :=
  ⟨PosInv.flushed h hlen hle, h.wait.mono rfl rfl rfl rfl le_rfl fun _ hb => hb⟩

/-- Raising `next_safe_pos` to a boundary that is already flushed, as `append_entry`
does after a partial flush. -/
theorem LogInv.raiseNext (h : LogInv w0 l) {n : ℕ} (h1 : l.nextSafePos ≤ n)
    (h2 : n ≤ l.flushPos) (h3 : n ∈ l.bounds) : LogInv w0 { l with nextSafePos := n } := by
  have hp := h.pos
  refine ⟨⟨hp.safe_le_next.trans h1, h2, hp.flush_le_write, hp.buf_eq, hp.keys_pending,
    hp.writes_sorted, hp.writes_below, ?_, hp.vals_mono, hp.tiled, hp.safe_bound, h3,
    hp.write_bound⟩, h.wait.mono rfl rfl rfl rfl le_rfl fun _ hb => hb⟩
  intro p hp'
  obtain ⟨p1, p2, p3, p4⟩ := hp.pending_vals p hp'
  exact ⟨p1, p2.trans h1, p3, p4⟩

/-- The next context is fresh: it is neither a waiter nor completed. -/
theorem WaitInv.fresh_not_completed {s : ℕ} (h : WaitInv s l) : l.nextContext ∉ l.completed :=
  fun hc => lt_irrefl _ (h.completed_fresh _ hc)

/-- `_flush` with nothing to flush completes its context at once, outside `waitfor_safe`. -/
theorem LogInv.complete (h : LogInv w0 l) :
    LogInv w0 { l with nextContext := l.nextContext + 1,
                       completed := l.completed ++ [l.nextContext] } := by
  have hw := h.wait
  refine ⟨h.pos.waiters l.waitforSafe l.waiters _ _, ⟨hw.sorted, hw.keys_bound,
    hw.queued_waiter, ?_, ?_, ?_, ?_, hw.waiters_nodup⟩⟩
  · intro w hw' hnc
    exact hw.waiter_queued w hw' fun hc => hnc (List.mem_append_left _ hc)
  · intro w hw'
    have hne : w.1 ≠ l.nextContext := (hw.waiters_fresh w hw').ne
    show w.1 ∈ l.completed ++ [l.nextContext] ↔ _
    rw [List.mem_append, List.mem_singleton, or_iff_left hne]
    exact hw.completed_iff w hw'
  · intro w hw'
    exact Nat.lt_succ_of_lt (hw.waiters_fresh w hw')
  · intro c hc
    rcases List.mem_append.mp hc with hc | hc
    · exact Nat.lt_succ_of_lt (hw.completed_fresh c hc)
    · rw [List.mem_singleton.mp hc]
      exact Nat.lt_succ_self _

theorem LogInv.waited (h : LogInv w0 l) {l' : WriteState} (hl : l.waited = some l') :
    LogInv w0 l' ∧ l'.safePos = l.safePos := by
  have hp := h.pos
  have hw := h.wait
  have hfresh : ∀ w ∈ l.waiters, w.1 ≠ l.nextContext := fun w hw' => (hw.waiters_fresh w hw').ne
  have hnodup : ((l.waiters ++ [(l.nextContext, l.writePos)]).map Prod.fst).Nodup := by
    rw [List.map_append, List.nodup_append]
    refine ⟨hw.waiters_nodup, List.nodup_singleton _, ?_⟩
    intro a ha b hb
    obtain ⟨w, hw', rfl⟩ := List.mem_map.mp ha
    rw [List.map_singleton, List.mem_singleton] at hb
    exact hb ▸ hfresh w hw'
  have hfresh' : ∀ w ∈ l.waiters ++ [(l.nextContext, l.writePos)], w.1 < l.nextContext + 1 := by
    intro w hw'
    rcases List.mem_append.mp hw' with hw' | hw'
    · exact Nat.lt_succ_of_lt (hw.waiters_fresh w hw')
    · rw [List.mem_singleton.mp hw']
      exact Nat.lt_succ_self _
  unfold WriteState.waited at hl
  dsimp only at hl
  split_ifs at hl with hsafe hbuf
  · cases hl
    refine ⟨⟨hp.waiters _ _ _ _, ⟨hw.sorted, hw.keys_bound, ?_, ?_, ?_, hfresh', ?_, hnodup⟩⟩, rfl⟩
    · intro p hp' c hc
      exact List.mem_append_left _ (hw.queued_waiter p hp' c hc)
    · intro w hw' hnc
      rcases List.mem_append.mp hw' with hw' | hw'
      · exact hw.waiter_queued w hw' fun hc => hnc (List.mem_append_left _ hc)
      · rw [List.mem_singleton.mp hw'] at hnc
        exact absurd (List.mem_append_right _ (List.mem_singleton_self _)) hnc
    · intro w hw'
      show w.1 ∈ l.completed ++ [l.nextContext] ↔ w.2 ≤ l.safePos
      rcases List.mem_append.mp hw' with hw' | hw'
      · rw [List.mem_append, List.mem_singleton, or_iff_left (hfresh w hw')]
        exact hw.completed_iff w hw'
      · rw [List.mem_singleton.mp hw']
        exact iff_of_true (List.mem_append_right _ (List.mem_singleton_self _)) hsafe.le
    · intro c hc
      rcases List.mem_append.mp hc with hc | hc
      · exact Nat.lt_succ_of_lt (hw.completed_fresh c hc)
      · rw [List.mem_singleton.mp hc]
        exact Nat.lt_succ_self _
  · cases hl
    have hlt : l.safePos < l.writePos := by
      have := hp.safe_le_next
      have := hp.next_le_flush
      have := hp.flush_le_write
      omega
    set old := (find? l.waitforSafe l.writePos).getD [] with hold
    have hold_mem : ∀ c ∈ old, (c, l.writePos) ∈ l.waiters := by
      intro c hc
      cases hf : find? l.waitforSafe l.writePos with
      | none => simp [hold, hf] at hc
      | some cs =>
        rw [hold, hf, Option.getD_some] at hc
        exact hw.queued_waiter _ (mem_of_find? hf) c hc
    refine ⟨⟨hp.waiters _ _ _ _, ⟨hw.sorted.set _ _, ?_, ?_, ?_, ?_, hfresh',
      fun c hc => Nat.lt_succ_of_lt (hw.completed_fresh c hc), hnodup⟩⟩, rfl⟩
    · intro p hp'
      rcases mem_set hp' with rfl | hp'
      · exact ⟨hlt, le_rfl, hp.write_bound⟩
      · exact hw.keys_bound p hp'
    · intro p hp' c hc
      rcases mem_set hp' with rfl | hp'
      · rcases List.mem_append.mp hc with hc | hc
        · exact List.mem_append_left _ (hold_mem c hc)
        · rw [List.mem_singleton.mp hc]
          exact List.mem_append_right _ (List.mem_singleton_self _)
      · exact List.mem_append_left _ (hw.queued_waiter p hp' c hc)
    · intro w hw' hnc
      rcases List.mem_append.mp hw' with hw' | hw'
      · obtain ⟨p, hp', hpk, hc⟩ := hw.waiter_queued w hw' hnc
        by_cases hk : p.1 = l.writePos
        · refine ⟨_, mem_set_self _ _ _, hk ▸ hpk, List.mem_append_left _ ?_⟩
          have hf := find?_of_mem hw.sorted.nodup hp'
          rw [hk] at hf
          rw [hold, hf, Option.getD_some]
          exact hc
        · exact ⟨p, mem_set_of_ne hp' hk, hpk, hc⟩
      · rw [List.mem_singleton.mp hw']
        exact ⟨_, mem_set_self _ _ _, rfl, List.mem_append_right _ (List.mem_singleton_self _)⟩
    · intro w hw'
      rcases List.mem_append.mp hw' with hw' | hw'
      · exact hw.completed_iff w hw'
      · rw [List.mem_singleton.mp hw']
        exact iff_of_false hw.fresh_not_completed (not_le.mpr hlt)

/-- The `safe_pos` that `_finish_flush` takes from what is left of `pending_safe`. -/
theorem PosInv.head_safe (h : PosInv w0 l) {ps : List (ℕ × ℕ)} (hps : ps.Sublist l.pendingSafe) :
    l.safePos ≤ (ps.head?.map Prod.snd).getD l.nextSafePos ∧
      (ps.head?.map Prod.snd).getD l.nextSafePos ≤ l.nextSafePos ∧
      (ps.head?.map Prod.snd).getD l.nextSafePos ∈ l.bounds ∧
      ∀ q ∈ ps, (ps.head?.map Prod.snd).getD l.nextSafePos ≤ q.2 := by
  cases ps with
  | nil => exact ⟨h.safe_le_next, le_rfl, h.next_bound, fun _ hq => absurd hq List.not_mem_nil⟩
  | cons p rest =>
    have hp : p ∈ l.pendingSafe := hps.subset List.mem_cons_self
    obtain ⟨h1, h2, -, h4⟩ := h.pending_vals p hp
    have hmono : ((p :: rest).map Prod.snd).Pairwise (· ≤ ·) := h.vals_mono.sublist (hps.map _)
    rw [List.map_cons, List.pairwise_cons] at hmono
    refine ⟨h1, h2, h4, ?_⟩
    intro q hq
    rcases List.mem_cons.mp hq with rfl | hq
    · exact le_rfl
    · exact hmono.1 q.2 (List.mem_map_of_mem hq)

/-- Completing the waiters up to a raised safe position keeps every waiter completed
exactly when its position is safe. -/
theorem WaitInv.kick {s s' : ℕ} (h : WaitInv s l) (hs : s ≤ s') {l' : WriteState}
    (hwf : l'.waitforSafe = l.waitforSafe.dropWhile fun p => decide (p.1 ≤ s'))
    (hc : l'.completed = l.completed ++
      (l.waitforSafe.takeWhile fun p => decide (p.1 ≤ s')).flatMap Prod.snd)
    (hw : l'.waiters = l.waiters) (hwrite : l'.writePos = l.writePos)
    (hb : l'.bounds = l.bounds) (hn : l'.nextContext = l.nextContext) : WaitInv s' l' := by
  have hsplit : (l.waitforSafe.takeWhile fun p => decide (p.1 ≤ s')) ++
      (l.waitforSafe.dropWhile fun p => decide (p.1 ≤ s')) = l.waitforSafe :=
    List.takeWhile_append_dropWhile
  have hkicked : ∀ c, c ∈ (l.waitforSafe.takeWhile fun p => decide (p.1 ≤ s')).flatMap Prod.snd →
      ∃ p ∈ l.waitforSafe, p.1 ≤ s' ∧ (c, p.1) ∈ l.waiters := by
    intro c hc
    obtain ⟨p, hp, hcp⟩ := List.mem_flatMap.mp hc
    have hle : p.1 ≤ s' :=
      of_decide_eq_true (@List.mem_takeWhile_imp _ (fun q : ℕ × List ℕ => decide (q.1 ≤ s')) _ _ hp)
    have hp' : p ∈ l.waitforSafe := (List.takeWhile_sublist _).subset hp
    exact ⟨p, hp', hle, h.queued_waiter p hp' c hcp⟩
  refine ⟨?_, ?_, ?_, ?_, ?_, ?_, ?_, hw ▸ h.waiters_nodup⟩
  · rw [hwf]
    exact h.sorted.sublist (List.dropWhile_sublist _)
  · intro p hp
    rw [hwf] at hp
    obtain ⟨-, h2, h3⟩ := h.keys_bound p ((List.dropWhile_sublist _).subset hp)
    exact ⟨lt_of_mem_dropWhile h.sorted hp, hwrite ▸ h2, hb ▸ h3⟩
  · intro p hp c hcp
    rw [hwf] at hp
    exact hw ▸ h.queued_waiter p ((List.dropWhile_sublist _).subset hp) c hcp
  · intro w hw' hnc
    rw [hw] at hw'
    rw [hc, List.mem_append, not_or] at hnc
    obtain ⟨p, hp, hpk, hcp⟩ := h.waiter_queued w hw' hnc.1
    rw [← hsplit] at hp
    rcases List.mem_append.mp hp with hp | hp
    · exact absurd (List.mem_flatMap.mpr ⟨p, hp, hcp⟩) hnc.2
    · exact ⟨p, hwf ▸ hp, hpk, hcp⟩
  · intro w hw'
    rw [hw] at hw'
    rw [hc, List.mem_append]
    constructor
    · rintro (hc' | hc')
      · exact ((h.completed_iff w hw').mp hc').trans hs
      · obtain ⟨p, -, hle, hcw⟩ := hkicked w.1 hc'
        have heq : w = (w.1, p.1) :=
          List.inj_on_of_nodup_map h.waiters_nodup hw' hcw rfl
        rw [heq]
        exact hle
    · intro hle
      by_cases hc' : w.1 ∈ l.completed
      · exact Or.inl hc'
      · obtain ⟨p, hp, hpk, hcp⟩ := h.waiter_queued w hw' hc'
        exact Or.inr (List.mem_flatMap.mpr
          ⟨p, mem_takeWhile_of_le h.sorted hp (hpk ▸ hle), hcp⟩)
  · intro w hw'
    rw [hw] at hw'
    exact hn ▸ h.waiters_fresh w hw'
  · intro c hc'
    rw [hc, List.mem_append] at hc'
    rcases hc' with hc' | hc'
    · exact hn ▸ h.completed_fresh c hc'
    · obtain ⟨p, -, -, hcw⟩ := hkicked c hc'
      exact hn ▸ h.waiters_fresh _ hcw

/-- `_finish_flush` for a write in flight keeps the invariant and does not lower
`safe_pos`. -/
theorem LogInv.acked (h : LogInv w0 l) {start len : ℕ} (hfind : find? l.writes start = some len) :
    LogInv w0 (l.acked start len) ∧ l.safePos ≤ (l.acked start len).safePos := by
  have hp := h.pos
  obtain ⟨hs1, hs2, hs3, hs4⟩ := hp.head_safe (erase_sublist l.pendingSafe start)
  refine ⟨⟨⟨hs2, hp.next_le_flush, hp.flush_le_write, hp.buf_eq, ?_,
    hp.writes_sorted.erase _, fun w hw => hp.writes_below w (mem_of_mem_erase hw), ?_,
    hp.vals_mono.sublist ((erase_sublist _ _).map _), ?_, hs3, hp.next_bound, hp.write_bound⟩,
    h.wait.kick hs1 rfl rfl rfl rfl rfl rfl⟩, hs1⟩
  · show keys (erase l.pendingSafe start) = keys (erase l.writes start)
    rw [keys_erase, keys_erase, hp.keys_pending]
  · intro q hq
    obtain ⟨-, h2, h3, h4⟩ := hp.pending_vals q (mem_of_mem_erase hq)
    exact ⟨hs4 q hq, h2, h3, h4⟩
  · show ∀ x, w0 ≤ x → x < l.flushPos →
      ∃ w ∈ (l.done ++ [(start, len)]) ++ erase l.writes start, w.1 ≤ x ∧ x < w.1 + w.2
    intro x hx hlt
    obtain ⟨w, hw, hcov⟩ := hp.tiled x hx hlt
    refine ⟨w, ?_, hcov⟩
    rcases List.mem_append.mp hw with hw | hw
    · exact List.mem_append_left _ (List.mem_append_left _ hw)
    · by_cases hk : w.1 = start
      · have hf := find?_of_mem hp.writes_sorted.nodup hw
        rw [hk, hfind] at hf
        have hw' : w = (start, len) := Prod.ext hk (Option.some.inj hf).symm
        exact List.mem_append_left _ (List.mem_append_right _ (hw' ▸ List.mem_singleton_self _))
      · exact List.mem_append_right _ (mem_erase_of_ne hw hk)

end Invariant

/-! ### The journal -/

section Journal

variable {cfg : Config} {j j' : Journaler}

/-- `_issue_prezero` only sends zero requests. -/
theorem issuePrezero_eq (h : issuePrezero cfg j = some j') : j'.log = j.log ∧ j'.tail = j.tail := by
  unfold issuePrezero at h
  dsimp only at h
  split_ifs at h
  · cases h
    exact ⟨rfl, rfl⟩
  · cases h
    exact ⟨rfl, rfl⟩

theorem issueWrite_eq {len : ℕ} (h : issueWrite cfg j len = some j') :
    j'.log = j.log.flushed len ∧ j'.tail = j.tail := by
  unfold issueWrite at h
  dsimp only at h
  split_ifs at h
  exact issuePrezero_eq h

/-- `_do_flush` either writes nothing, or writes a non-empty prefix of `write_buf`. -/
theorem doFlush_eq {amount : ℕ} (h : doFlush cfg j amount = some j') :
    j'.tail = j.tail ∧ (j'.log = j.log ∨
      ∃ len, 0 < len ∧ len ≤ j.log.writeBuf ∧ j'.log = j.log.flushed len) := by
  unfold doFlush at h
  split_ifs at h with heq hlt hbuf
  · cases h
    exact ⟨rfl, Or.inl rfl⟩
  dsimp only at h
  generalize hL : (if amount ≠ 0 ∧ amount < j.log.writePos - j.log.flushPos then amount
    else j.log.writePos - j.log.flushPos) = len at h
  have hlen : 0 < len ∧ len ≤ j.log.writeBuf := by
    subst hL
    split_ifs <;> omega
  split_ifs at h with hzero
  · obtain ⟨j₁, hj₁, h⟩ := Option.bind_eq_some_iff.mp h
    obtain ⟨hlog, htail⟩ := issuePrezero_eq hj₁
    split_ifs at h with hnew hshort
    · cases h
      exact ⟨htail, Or.inl hlog⟩
    · obtain ⟨hlog', htail'⟩ := issueWrite_eq h
      exact ⟨htail'.trans htail,
        Or.inr ⟨_, by omega, by omega, hlog'.trans (congrArg (WriteState.flushed · _) hlog)⟩⟩
    · obtain ⟨hlog', htail'⟩ := issueWrite_eq h
      exact ⟨htail'.trans htail,
        Or.inr ⟨len, hlen.1, hlen.2, hlog'.trans (congrArg (WriteState.flushed · len) hlog)⟩⟩
  · obtain ⟨hlog', htail'⟩ := issueWrite_eq h
    exact ⟨htail', Or.inr ⟨len, hlen.1, hlen.2, hlog'⟩⟩

/-- What every reachable journal satisfies. -/
structure Inv (w0 : ℕ) (j : Journaler) : Prop where
  log : LogInv w0 j.log
  trimmed_le : j.tail.trimmedPos ≤ j.tail.trimmingPos

variable {w0 : ℕ}

theorem inv_init (w0 t0 e0 : ℕ) : Inv w0 (init w0 t0 e0) :=
  ⟨logInv_init w0 t0 e0, le_rfl⟩

/-- The invariant does not read the prezero bookkeeping. -/
theorem Inv.zero (h : Inv w0 j) (z : PrezeroState) : Inv w0 { j with zero := z } :=
  ⟨h.log, h.trimmed_le⟩

theorem Inv.doFlush (h : Inv w0 j) {amount : ℕ} (hs : doFlush cfg j amount = some j') :
    Inv w0 j' ∧ j'.log.safePos = j.log.safePos := by
  obtain ⟨htail, hlog | ⟨len, hlen, hle, hlog⟩⟩ := doFlush_eq hs
  · exact ⟨⟨hlog ▸ h.log, htail ▸ h.trimmed_le⟩, hlog ▸ rfl⟩
  · exact ⟨⟨hlog ▸ h.log.flushed hlen hle, htail ▸ h.trimmed_le⟩, hlog ▸ rfl⟩

theorem Inv.appendEntry (h : Inv w0 j) {wrote : ℕ} (hs : appendEntry cfg j wrote = some j') :
    Inv w0 j' ∧ j.log.safePos ≤ j'.log.safePos := by
  have h₁ : Inv w0 { j with log := j.log.appended wrote } := ⟨h.log.appended wrote, h.trimmed_le⟩
  unfold Lunule.Journaler.appendEntry at hs
  dsimp only at hs
  split_ifs at hs with hobj
  · obtain ⟨j₂, hj₂, rfl⟩ := Option.map_eq_some_iff.mp hs
    obtain ⟨h₂, hsafe⟩ := h₁.doFlush hj₂
    split_ifs with hleft
    · have hnext : j₂.log.nextSafePos ≤ j.log.writePos := by
        have hw := h.log.pos
        obtain ⟨-, hlog | ⟨len, -, hle, hlog⟩⟩ := doFlush_eq hj₂
        · rw [hlog]
          exact hw.next_le_flush.trans hw.flush_le_write
        · have hfull : len ≠ j.log.writeBuf + wrote := by
            intro hfull
            rw [hlog, hfull] at hleft
            exact absurd hleft.1 (by simp [WriteState.flushed, WriteState.appended])
          rw [hlog]
          simp only [WriteState.flushed, WriteState.appended, hfull, if_false]
          rcases WriteState.partialSafePos_cases j.log.waitforSafe
              (j.log.flushPos + len) j.log.nextSafePos with heq | ⟨-, -, p, hp, hpk⟩
          · rw [heq]
            exact hw.next_le_flush.trans hw.flush_le_write
          · rw [← hpk]
            exact (h.log.wait.keys_bound p hp).2.1
      have hwrite : j₂.log.writePos = j.log.writePos + wrote := by
        obtain ⟨-, hlog | ⟨len, -, -, hlog⟩⟩ := doFlush_eq hj₂ <;> rw [hlog] <;> rfl
      have hbounds : j.log.writePos ∈ j₂.log.bounds := by
        obtain ⟨-, hlog | ⟨len, -, -, hlog⟩⟩ := doFlush_eq hj₂ <;> rw [hlog] <;>
          exact List.mem_append_left _ h.log.pos.write_bound
      have hbuf := h₂.log.pos.buf_eq
      refine ⟨⟨h₂.log.raiseNext (by omega) (by omega) (by rwa [hwrite, Nat.add_sub_cancel]),
        h₂.trimmed_le⟩, hsafe.ge⟩
    · exact ⟨h₂, hsafe.ge⟩
  · cases hs
    exact ⟨h₁, le_rfl⟩

theorem Inv.waitForFlush (h : Inv w0 j) {onsafe : Bool} (hs : waitForFlush j onsafe = some j') :
    Inv w0 j' ∧ j.log.safePos ≤ j'.log.safePos := by
  unfold Lunule.Journaler.waitForFlush at hs
  split_ifs at hs
  · obtain ⟨l', hl', rfl⟩ := Option.map_eq_some_iff.mp hs
    obtain ⟨hinv, hsafe⟩ := h.log.waited hl'
    exact ⟨⟨hinv, h.trimmed_le⟩, hsafe.ge⟩
  · cases hs
    exact ⟨h, le_rfl⟩

theorem Inv.flush (h : Inv w0 j) {onsafe : Bool} (hs : flush cfg j onsafe = some j') :
    Inv w0 j' ∧ j.log.safePos ≤ j'.log.safePos := by
  unfold Lunule.Journaler.flush at hs
  split_ifs at hs
  · cases hs
    exact ⟨⟨h.log.complete, h.trimmed_le⟩, le_rfl⟩
  · cases hs
    exact ⟨h, le_rfl⟩
  · obtain ⟨j₁, hj₁, hs⟩ := Option.bind_eq_some_iff.mp hs
    obtain ⟨h₁, hsafe₁⟩ := h.doFlush hj₁
    obtain ⟨h₂, hsafe₂⟩ := h₁.waitForFlush hs
    exact ⟨h₂, hsafe₁ ▸ hsafe₂⟩

theorem Inv.finishFlush (h : Inv w0 j) {start : ℕ} (hs : finishFlush j start = some j') :
    Inv w0 j' ∧ j.log.safePos ≤ j'.log.safePos := by
  unfold Lunule.Journaler.finishFlush at hs
  split at hs
  · cases hs
  · rename_i len hlen
    split_ifs at hs
    cases hs
    obtain ⟨hinv, hsafe⟩ := h.log.acked hlen
    exact ⟨⟨hinv, h.trimmed_le⟩, hsafe⟩

theorem Inv.finishPrezero (h : Inv w0 j) {start : ℕ} (hs : finishPrezero cfg j start = some j') :
    Inv w0 j' ∧ j.log.safePos ≤ j'.log.safePos := by
  unfold Lunule.Journaler.finishPrezero at hs
  split at hs
  · cases hs
  · dsimp only at hs
    split_ifs at hs
    · exact ((h.zero _).doFlush hs).imp id Eq.ge
    · cases hs
      exact ⟨h.zero _, le_rfl⟩
    · cases hs
      exact ⟨h.zero _, le_rfl⟩

theorem Inv.trim (h : Inv w0 j) {committed : ℕ} (hs : trim cfg j committed = some j') :
    Inv w0 j' ∧ j.log.safePos ≤ j'.log.safePos := by
  unfold Lunule.Journaler.trim at hs
  dsimp only at hs
  split_ifs at hs with h0 hbusy hok
  · cases hs
    exact ⟨h, le_rfl⟩
  · cases hs
    exact ⟨h, le_rfl⟩
  · cases hs
    have := h.trimmed_le
    exact ⟨⟨h.log, show j.tail.trimmedPos ≤ committed - committed % cfg.period by omega⟩, le_rfl⟩

theorem Inv.finishTrim (h : Inv w0 j) {trimTo : ℕ} (hs : finishTrim j trimTo = some j') :
    Inv w0 j' ∧ j.log.safePos ≤ j'.log.safePos := by
  unfold Lunule.Journaler.finishTrim at hs
  dsimp only at hs
  split_ifs at hs with hin hok
  cases hs
  exact ⟨⟨h.log, hok.1⟩, le_rfl⟩

/-- Every step keeps the invariant, and none lowers `safe_pos`. -/
theorem Inv.step (h : Inv w0 j) {e : Event} (hs : step cfg j e = some j') :
    Inv w0 j' ∧ j.log.safePos ≤ j'.log.safePos := by
  cases e with
  | appendEntry wrote => exact h.appendEntry hs
  | flush onsafe => exact h.flush hs
  | waitForFlush onsafe => exact h.waitForFlush hs
  | finishFlush start => exact h.finishFlush hs
  | finishPrezero start => exact h.finishPrezero hs
  | trim committed => exact h.trim hs
  | finishTrim trimTo => exact h.finishTrim hs
  | setExpirePos ep =>
    cases hs
    exact ⟨⟨h.log, h.trimmed_le⟩, le_rfl⟩
  | setTrimmedPos p =>
    cases hs
    exact ⟨⟨h.log, le_rfl⟩, le_rfl⟩

theorem inv_run {t0 e0 : ℕ} {es : List Event} (hrun : run (step cfg) (init w0 t0 e0) es = some j) :
    Inv w0 j :=
  run_invariant (step cfg) (Inv w0) (fun _ _ _ hs he => (hs.step he).1) es _ _ (inv_init w0 t0 e0) hrun

/-- Whatever order the filer acknowledges the writes in, the positions stay ordered,
`safe_pos` never falls, every byte below it lies in an acknowledged write and it is an
entry boundary, and a waiter is completed exactly when `safe_pos` has reached its position. -/
theorem safe_pos_sound {t0 e0 : ℕ} {es : List Event}
    (hrun : run (step cfg) (init w0 t0 e0) es = some j) :
    (j.tail.trimmedPos ≤ j.tail.trimmingPos ∧ j.log.safePos ≤ j.log.nextSafePos ∧
      j.log.nextSafePos ≤ j.log.flushPos ∧ j.log.flushPos ≤ j.log.writePos ∧
      j.log.writeBuf = j.log.writePos - j.log.flushPos) ∧
    (∀ e j', step cfg j e = some j' → j.log.safePos ≤ j'.log.safePos) ∧
    ((∀ x, w0 ≤ x → x < j.log.safePos → ∃ w ∈ j.log.done, w.1 ≤ x ∧ x < w.1 + w.2) ∧
      j.log.safePos ∈ j.log.bounds) ∧
    (∀ w ∈ j.log.waiters, w.1 ∈ j.log.completed ↔ w.2 ≤ j.log.safePos) := by
  have h := inv_run hrun
  have hp := h.log.pos
  exact ⟨⟨h.trimmed_le, hp.safe_le_next, hp.next_le_flush, hp.flush_le_write, hp.buf_eq⟩,
    fun _ _ hs => (h.step hs).2, ⟨hp.safe_done, hp.safe_bound⟩, h.log.wait.completed_iff⟩

/-- A layout of 16-byte periods. -/
def smallLayout : Config := ⟨16, 2, by decide⟩

/-- Three entries with a waiter after each, the prezeroing completed, and the two
writes acknowledged in the reverse of their issue order. -/
def reorderedAcks : List Event :=
  [.appendEntry 10, .waitForFlush true, .appendEntry 10, .waitForFlush true,
   .finishPrezero 0, .finishPrezero 16, .finishPrezero 32, .finishPrezero 48,
   .appendEntry 5, .flush true, .finishFlush 16, .finishFlush 0]

theorem reorderedAcks_sound : ∃ j, run (step smallLayout) (init 0 0 0) reorderedAcks = some j ∧
    (j.tail.trimmedPos ≤ j.tail.trimmingPos ∧ j.log.safePos ≤ j.log.nextSafePos ∧
      j.log.nextSafePos ≤ j.log.flushPos ∧ j.log.flushPos ≤ j.log.writePos ∧
      j.log.writeBuf = j.log.writePos - j.log.flushPos) ∧
    (∀ e j', step smallLayout j e = some j' → j.log.safePos ≤ j'.log.safePos) ∧
    ((∀ x, 0 ≤ x → x < j.log.safePos → ∃ w ∈ j.log.done, w.1 ≤ x ∧ x < w.1 + w.2) ∧
      j.log.safePos ∈ j.log.bounds) ∧
    (∀ w ∈ j.log.waiters, w.1 ∈ j.log.completed ↔ w.2 ≤ j.log.safePos) := by
  obtain ⟨j, hj⟩ : ∃ j, run (step smallLayout) (init 0 0 0) reorderedAcks = some j := ⟨_, rfl⟩
  exact ⟨j, hj, safe_pos_sound hj⟩

end Journal

end Lunule.Journaler
