import Lunule.Journaler
import Lunule.Journaler.Stream

/-!
The read path of the `Journaler` (`osdc/Journaler.cc`). `_prefetch` asks for the journal up to a
period boundary `fetch_len` past `read_pos`, and `_issue_read` sends one read per object. The
completions `_finish_read` arrive in any order and park their bytes in `prefetch_buf`.
`_assimilate_prefetch` moves the buffers that follow `received_pos` without a gap into
`read_buf`. `_is_readable` asks the stream whether a whole entry is buffered, and
`try_read_entry` takes one off.

The reader is that of a journal that is only read, as replay reads it after `recover`:
`write_pos`, `flush_pos` and `safe_pos` are the one position the probe found, kept as
`write_pos`, so `_prefetch` never flushes. A `buffer::error` that a caller catches sets `error`
to `-EINVAL`; an assert that fails is `none`. Callback contexts are numbered, and the reader
keeps one list the source does not: the entries `try_read_entry` has taken off the stream.
-/

namespace Lunule.Journaler

open OrdMap Runs JournalStream

/-- `-EINVAL`. -/
def einval : ℤ := -22

structure Reader where
  readPos : ℕ
  requestedPos : ℕ
  receivedPos : ℕ
  readBuf : List UInt8
  prefetchBuf : List (ℕ × List UInt8)
  fetchLen : ℕ
  tempFetchLen : ℕ
  readable : Bool
  error : ℤ
  /-- `write_pos`, which is also `flush_pos` and `safe_pos`. -/
  writePos : ℕ
  /-- `on_readable`: the context waiting for an entry. -/
  onReadable : Option ℕ
  /-- Reads in flight: the offset and the length each `C_Read` carries. -/
  reads : List (ℕ × ℕ)
  /-- Contexts completed, with the result each was given. -/
  completed : List (ℕ × ℤ)
  /-- The entries `try_read_entry` has taken off the stream, in order. -/
  entries : List (List UInt8)
  deriving DecidableEq, Repr

namespace Reader

/-- The reader `_finish_read_head` and `_finish_probe_end` leave: reading from `expire_pos` to
the end the probe found, `fetch_len` the layout period times `journaler_prefetch_periods`, at
least 2. -/
def init (cfg : Config) (prefetchPeriods expirePos endPos : ℕ) : Reader :=
  ⟨expirePos, expirePos, expirePos, [], [], cfg.period * max 2 prefetchPeriods, 0, false, 0,
    endPos, none, [], [], []⟩

/-- Complete `on_readable`, if a context waits, with `res`. -/
def wake (rd : Reader) (res : ℤ) : Reader :=
  match rd.onReadable with
  | none => rd
  | some c => { rd with onReadable := none, completed := rd.completed ++ [(c, res)] }

/-- `_is_readable()`: whether a whole entry is buffered. A partial entry at the end of what can be
read cuts the journal back to `read_pos`; an entry longer than `fetch_len` is noted in
`temp_fetch_len`. -/
def isReadable (js : JournalStream) (rd : Reader) : Except BufferError (Bool × Reader) :=
  if rd.readPos = rd.writePos then .ok (false, rd)
  else match js.readable rd.readBuf with
    | .error e => .error e
    | .ok (true, _) => .ok (true, rd)
    | .ok (false, need) =>
      if rd.receivedPos = rd.writePos then
        .ok (false, { rd with writePos := rd.readPos, requestedPos := rd.readPos,
                              receivedPos := rd.readPos, readBuf := [] })
      else if rd.fetchLen < need then .ok (false, { rd with tempFetchLen := need })
      else .ok (false, rd)

/-- The loop of `_issue_read`: a read from `requested_pos` to the end of its period, or of what
is left of `len`, at a time. Each pass reads at least one byte, so `len` passes are enough. -/
def readRequests (period : ℕ) : ℕ → ℕ → ℕ → List (ℕ × ℕ) × ℕ
  | 0, pos, _ => ([], pos)
  | fuel + 1, pos, len =>
    if 0 < len then
      let e := pos + period
      let e := e - e % period
      let l := min (e - pos) len
      let r := readRequests period fuel (pos + l) (len - l)
      ((pos, l) :: r.1, r.2)
    else ([], pos)

/-- `_issue_read(len)`. At `safe_pos` it would wait for a flush, and it asserts that `write_pos`
is past `safe_pos` then: in a journal that is only read, that assert fails. -/
def issueRead (cfg : Config) (rd : Reader) (len : ℕ) : Option Reader :=
  if rd.writePos < rd.requestedPos then none
  else if rd.requestedPos = rd.writePos then none
  else
    -- don't read past `safe_pos`
    let len := if rd.writePos < rd.requestedPos + len then rd.writePos - rd.requestedPos else len
    let r := readRequests cfg.period len rd.requestedPos len
    some { rd with reads := rd.reads ++ r.1, requestedPos := r.2 }

/-- How far `_prefetch` reads: `pf` bytes past `read_pos`, on to a period boundary, but not past
`write_pos`. -/
def prefetchTarget (period readPos pf writePos : ℕ) : ℕ :=
  let rawTarget := readPos + pf
  let remainder := rawTarget % period
  let adjustment := if remainder ≠ 0 then period - remainder else 0
  min (rawTarget + adjustment) writePos

/-- `_prefetch()`: read on to the target of `fetch_len`, or of the `temp_fetch_len` an entry
needs. -/
def prefetch (cfg : Config) (rd : Reader) : Option Reader :=
  let (pf, rd) := if rd.tempFetchLen ≠ 0 then (rd.tempFetchLen, { rd with tempFetchLen := 0 })
    else (rd.fetchLen, rd)
  let target := prefetchTarget cfg.period rd.readPos pf rd.writePos
  if rd.requestedPos < target then issueRead cfg rd (target - rd.requestedPos) else some rd

/-- The loop of `_assimilate_prefetch`: the first buffer of `prefetch_buf` moves to `read_buf`
while it starts at `received_pos`; the source asserts that `received_pos` stays within what
was requested. -/
def assimilateLoop (requestedPos : ℕ) :
    List (ℕ × List UInt8) → ℕ → List UInt8 → Bool →
      Option (List (ℕ × List UInt8) × ℕ × List UInt8 × Bool)
  | [], pos, buf, got => some ([], pos, buf, got)
  | (o, b) :: rest, pos, buf, got =>
    if o ≠ pos then some ((o, b) :: rest, pos, buf, got)
    else if requestedPos < pos + b.length then none
    else assimilateLoop requestedPos rest (pos + b.length) (buf ++ b) true

/-- `_assimilate_prefetch()`. When `_is_readable` throws, the result is `.error` of the reader it
threw in. -/
def assimilatePrefetch (js : JournalStream) (rd : Reader) : Option (Except Reader Reader) :=
  (assimilateLoop rd.requestedPos rd.prefetchBuf rd.receivedPos rd.readBuf false).map
    fun (pb, pos, buf, gotAny) =>
      let rd' := { rd with prefetchBuf := pb, receivedPos := pos, readBuf := buf }
      -- new bytes: `readable` is asked again
      let res : Except Reader Reader :=
        if gotAny then
          match isReadable js rd' with
          | .error _ => .error rd'
          | .ok (b, rd'') => .ok { rd'' with readable := b }
        else .ok rd'
      res.map fun rd'' =>
        if (gotAny && !rd.readable && rd''.readable) || rd''.readPos == rd''.writePos then
          rd''.wake 0
        else rd''

/-- `_finish_read(r, offset, length, bl)`: the completion of the read at `offset`, with the
filer's result `res` and the bytes `bl`. -/
def finishRead (cfg : Config) (js : JournalStream) (rd : Reader) (res : ℤ) (offset : ℕ)
    (bl : List UInt8) : Option Reader :=
  match find? rd.reads offset with
  | none => none
  | some length =>
    let rd := { rd with reads := erase rd.reads offset }
    let rd : Reader := if res < 0 then { rd with error := res }
      else if bl.length < length then { rd with error := einval } else rd
    if rd.error ≠ 0 then some (rd.wake rd.error)
    else
      let rd := { rd with prefetchBuf := set rd.prefetchBuf offset bl }
      match assimilatePrefetch js rd with
      | none => none
      | some (.error rd) => some ({ rd with error := einval }.wake einval)
      | some (.ok rd) => prefetch cfg rd

/-- `try_read_entry(bl)`: whether an entry was read. The entry is taken off the stream once
`read` has it, even when `_is_readable` then throws. -/
def tryReadEntry (cfg : Config) (js : JournalStream) (rd : Reader) : Option (Bool × Reader) :=
  if !rd.readable then some (false, rd)
  else match js.read rd.readBuf with
    | none => none
    | some (.error _) => some (false, { rd with error := einval })
    | some (.ok (entry, startPtr, consumed, rest)) =>
      if js.resilient = true ∧ startPtr ≠ UInt64.ofNat rd.readPos then none
      else
        let rd := { rd with readBuf := rest, readPos := rd.readPos + consumed,
                            entries := rd.entries ++ [entry] }
        match isReadable js rd with
        | .error _ => some (false, { rd with error := einval })
        | .ok (b, rd) => (prefetch cfg { rd with readable := b }).map fun rd => (true, rd)

/-- `is_readable()`: `readable`, with a prefetch to keep the reads going; false after an error. -/
def isReadablePublic (cfg : Config) (rd : Reader) : Option (Bool × Reader) :=
  if rd.error ≠ 0 then some (false, rd)
  else (prefetch cfg rd).map fun rd' => (rd.readable, rd')

/-- `wait_for_readable(onreadable)`: the context waits for an entry, or completes at once when
one is ready. The source asserts that no other context waits. -/
def waitForReadable (rd : Reader) (c : ℕ) : Option Reader :=
  if rd.onReadable.isSome then none
  else if !rd.readable then some { rd with onReadable := some c }
  else some { rd with completed := rd.completed ++ [(c, 0)] }

end Reader

/-- The calls on a reader and the completions of its reads. -/
inductive ReadEvent where
  | isReadable
  | waitForReadable (c : ℕ)
  | tryReadEntry
  | finishRead (res : ℤ) (offset : ℕ) (bl : List UInt8)
  deriving DecidableEq, Repr

namespace Reader

def step (cfg : Config) (js : JournalStream) (rd : Reader) : ReadEvent → Option Reader
  | .isReadable => (rd.isReadablePublic cfg).map Prod.snd
  | .waitForReadable c => rd.waitForReadable c
  | .tryReadEntry => (rd.tryReadEntry cfg js).map Prod.snd
  | .finishRead res offset bl => rd.finishRead cfg js res offset bl

/-! ## What the steps change -/

theorem readRequests_le (period : ℕ) :
    ∀ fuel pos len, pos ≤ (readRequests period fuel pos len).2 ∧
      (readRequests period fuel pos len).2 ≤ pos + len
  | 0, pos, len => by simp [readRequests]
  | fuel + 1, pos, len => by
    unfold readRequests
    split_ifs
    · have ih := readRequests_le period fuel
        (pos + min (pos + period - (pos + period) % period - pos) len)
        (len - min (pos + period - (pos + period) % period - pos) len)
      simp only
      omega
    · simp

/-- `_issue_read` adds reads and moves `requested_pos` up, not past `write_pos`. -/
theorem issueRead_eq {cfg : Config} {rd rd' : Reader} {len : ℕ}
    (h : rd.issueRead cfg len = some rd') :
    ∃ rs q, rd' = { rd with reads := rd.reads ++ rs, requestedPos := q } ∧
      rd.requestedPos ≤ q ∧ q ≤ rd.writePos := by
  unfold issueRead at h
  split_ifs at h with h1 h2 h3
  · cases h
    have hb := readRequests_le cfg.period (rd.writePos - rd.requestedPos) rd.requestedPos
      (rd.writePos - rd.requestedPos)
    exact ⟨_, _, rfl, hb.1, by omega⟩
  · cases h
    have hb := readRequests_le cfg.period len rd.requestedPos len
    exact ⟨_, _, rfl, hb.1, by omega⟩

/-- `_prefetch` adds reads, moves `requested_pos` up but not past `write_pos`, and may clear
`temp_fetch_len`. -/
theorem prefetch_eq {cfg : Config} {rd rd' : Reader} (h : rd.prefetch cfg = some rd') :
    ∃ rs q t, rd' = { rd with reads := rd.reads ++ rs, requestedPos := q, tempFetchLen := t } ∧
      rd.requestedPos ≤ q ∧ (rd.requestedPos ≤ rd.writePos → q ≤ rd.writePos) := by
  unfold prefetch at h
  obtain ⟨pf, t, hpf⟩ : ∃ pf t, (if rd.tempFetchLen ≠ 0 then
      (rd.tempFetchLen, { rd with tempFetchLen := 0 }) else (rd.fetchLen, rd)) =
        (pf, { rd with tempFetchLen := t }) := by
    split_ifs
    · exact ⟨_, 0, rfl⟩
    · exact ⟨_, rd.tempFetchLen, rfl⟩
  rw [hpf] at h
  simp only at h
  split_ifs at h
  · obtain ⟨rs, q, rfl, hq1, hq2⟩ := issueRead_eq h
    exact ⟨rs, q, t, rfl, hq1, fun _ => hq2⟩
  · cases h
    exact ⟨[], rd.requestedPos, t, by simp, le_rfl, id⟩

end Reader

/-! ## A reader of a journal of whole entries -/

/-- The completion of a read hands back the journal's bytes at its offset, when it succeeds. -/
def ReadEvent.Honest (disk : List UInt8) : ReadEvent → Prop
  | .finishRead res offset bl => 0 ≤ res → bl <+: disk.drop offset
  | _ => True

instance ReadEvent.decidableHonest (disk : List UInt8) :
    ∀ ev : ReadEvent, Decidable (ev.Honest disk)
  | .isReadable => isTrue trivial
  | .waitForReadable _ => isTrue trivial
  | .tryReadEntry => isTrue trivial
  | .finishRead res offset bl => inferInstanceAs (Decidable (0 ≤ res → bl <+: disk.drop offset))

/-- What a reader of the journal whose bytes from `p0` on are what `append_entry` wrote for the
entries `es` keeps of its positions and buffers. It has taken the first entries off and stands
where the next one starts; its buffers hold the journal's bytes at their offsets; and the
journal ends where the entries end. -/
structure StreamInv (js : JournalStream) (disk : List UInt8) (p0 : ℕ) (es : List (List UInt8))
    (rd : Reader) : Prop where
  entries_prefix : rd.entries <+: es
  readPos_eq : rd.readPos = p0 + (js.stream p0 rd.entries).length
  writePos_eq : rd.writePos = p0 + (js.stream p0 es).length
  read_le : rd.readPos ≤ rd.receivedPos
  received_le : rd.receivedPos ≤ rd.requestedPos
  requested_le : rd.requestedPos ≤ rd.writePos
  readBuf_eq : rd.readBuf = (disk.drop rd.readPos).take (rd.receivedPos - rd.readPos)
  prefetch_sound : ∀ p ∈ rd.prefetchBuf, p.2 <+: disk.drop p.1

/-- And it says readable only with the next whole entry buffered. -/
structure ReadInv (js : JournalStream) (disk : List UInt8) (p0 : ℕ) (es : List (List UInt8))
    (rd : Reader) : Prop extends StreamInv js disk p0 es rd where
  readable_sound : rd.readable = true → ∃ e rest, es.drop rd.entries.length = e :: rest ∧
    (js.envelope e (UInt64.ofNat rd.readPos)).length ≤ rd.readBuf.length

section Sound

variable {cfg : Config} {js : JournalStream} {disk : List UInt8} {p0 : ℕ}
  {es : List (List UInt8)} {rd rd' : Reader}

namespace StreamInv

/-- The bookkeeping fields are no part of the invariant. -/
theorem wake (h : StreamInv js disk p0 es rd) (res : ℤ) :
    StreamInv js disk p0 es (rd.wake res) := by
  unfold Reader.wake
  split
  · exact h
  · exact { h with }

theorem prefetch (h : StreamInv js disk p0 es rd) (hp : rd.prefetch cfg = some rd') :
    StreamInv js disk p0 es rd' := by
  obtain ⟨rs, q, t, rfl, hq1, hq2⟩ := Reader.prefetch_eq hp
  exact { h with
    received_le := h.received_le.trans hq1
    requested_le := hq2 h.requested_le }

variable (hlen : ∀ e ∈ es, e.length < 2 ^ 32) (hdisk : js.stream p0 es <+: disk.drop p0)
include hlen hdisk

/-- From `read_pos` on, the journal holds the entries not yet taken, and it ends where they do. -/
theorem rest (h : StreamInv js disk p0 es rd) :
    js.stream rd.readPos (es.drop rd.entries.length) <+: disk.drop rd.readPos ∧
      rd.writePos = rd.readPos + (js.stream rd.readPos (es.drop rd.entries.length)).length := by
  obtain ⟨t, ht⟩ := h.entries_prefix
  have hdrop : es.drop rd.entries.length = t := by rw [← ht, List.drop_left]
  have happ := js.stream_append p0 rd.entries t fun e he => hlen e (by
    rw [← ht]
    exact List.mem_append_left t he)
  rw [hdrop, h.readPos_eq]
  constructor
  · have hd := hdisk.drop (js.stream p0 rd.entries).length
    rwa [← ht, happ, List.drop_left, List.drop_drop] at hd
  · rw [h.writePos_eq, ← ht, happ, List.length_append, Nat.add_assoc]

/-- What is buffered is a prefix of the entries not yet taken. -/
theorem readBuf_prefix (h : StreamInv js disk p0 es rd) :
    rd.readBuf <+: js.stream rd.readPos (es.drop rd.entries.length) := by
  obtain ⟨hrest, hwrite⟩ := h.rest hlen hdisk
  rw [h.readBuf_eq]
  exact Wire.take_prefix_of_le hrest (by have := h.received_le; have := h.requested_le; omega)

/-- `_is_readable` on such a reader throws nothing and never cuts the journal back: it says
whether the next entry is whole in `read_buf`, and at most notes a `temp_fetch_len`. -/
theorem isReadable (h : StreamInv js disk p0 es rd) :
    ∃ b t, rd.isReadable js = .ok (b, { rd with tempFetchLen := t }) ∧
      (b = true ↔ ∃ e rest, es.drop rd.entries.length = e :: rest ∧
        (js.envelope e (UInt64.ofNat rd.readPos)).length ≤ rd.readBuf.length) := by
  obtain ⟨hrest, hwrite⟩ := h.rest hlen hdisk
  have hbuf := h.readBuf_prefix hlen hdisk
  unfold Reader.isReadable
  cases hd : es.drop rd.entries.length with
  | nil =>
    rw [hd] at hwrite
    rw [if_pos (by simpa [JournalStream.stream] using hwrite.symm)]
    exact ⟨false, rd.tempFetchLen, rfl, by simp⟩
  | cons e rest =>
    have he : e.length < 2 ^ 32 := hlen e (List.mem_of_mem_drop (hd ▸ List.mem_cons_self))
    rw [hd, JournalStream.stream] at hbuf hwrite hrest
    have hpos := List.length_pos_of_ne_nil (js.envelope_ne_nil e (UInt64.ofNat rd.readPos))
    rw [if_neg (by rw [hwrite, List.length_append]; omega)]
    obtain ⟨need, hr, -, -⟩ := js.readable_of_prefix he _ hbuf
    rw [hr]
    by_cases hfull : (js.envelope e (UInt64.ofNat rd.readPos)).length ≤ rd.readBuf.length
    · rw [decide_eq_true hfull]
      exact ⟨true, rd.tempFetchLen, rfl, iff_of_true rfl ⟨e, rest, rfl, hfull⟩⟩
    · rw [decide_eq_false hfull]
      have hnot : ¬ ∃ e' rest', e :: rest = e' :: rest' ∧
          (js.envelope e' (UInt64.ofNat rd.readPos)).length ≤ rd.readBuf.length := by
        rintro ⟨e', rest', heq, hle⟩
        obtain ⟨rfl, rfl⟩ := List.cons.inj heq
        exact hfull hle
      have hrecv : rd.receivedPos ≠ rd.writePos := by
        intro heq
        apply hfull
        rw [h.readBuf_eq, heq, hwrite, List.length_take, List.length_append]
        have := hrest.length_le
        simp only [List.length_drop, List.length_append] at this ⊢
        omega
      dsimp only
      rw [if_neg hrecv]
      split_ifs
      · exact ⟨false, need, rfl, iff_of_false (by simp) hnot⟩
      · exact ⟨false, rd.tempFetchLen, rfl, iff_of_false (by simp) hnot⟩

/-- After `_is_readable`, with its answer stored in `readable`, the reader keeps the whole
invariant. -/
theorem readInv_isReadable (h : StreamInv js disk p0 es rd) :
    ∃ b t, rd.isReadable js = .ok (b, { rd with tempFetchLen := t }) ∧
      ReadInv js disk p0 es { rd with tempFetchLen := t, readable := b } := by
  obtain ⟨b, t, hr, hiff⟩ := h.isReadable hlen hdisk
  exact ⟨b, t, hr, { h with readable_sound := hiff.1 }⟩

end StreamInv

/-- The loop of `_assimilate_prefetch` keeps the received bytes those of the journal, and moves
`received_pos` only within what was requested. The induction is on `prefetch_buf`. -/
theorem assimilateLoop_sound (requested readPos : ℕ) :
    ∀ (pb : List (ℕ × List UInt8)) (pos : ℕ) (buf : List UInt8) (got : Bool)
      (r : List (ℕ × List UInt8) × ℕ × List UInt8 × Bool),
      (∀ p ∈ pb, p.2 <+: disk.drop p.1) → readPos ≤ pos →
      buf = (disk.drop readPos).take (pos - readPos) →
      Reader.assimilateLoop requested pb pos buf got = some r →
      (∀ p ∈ r.1, p.2 <+: disk.drop p.1) ∧ pos ≤ r.2.1 ∧ (r.2.1 = pos ∨ r.2.1 ≤ requested) ∧
        r.2.2.1 = (disk.drop readPos).take (r.2.1 - readPos)
  | [], pos, buf, got, r, hpb, _, hbuf, h => by
    cases h
    exact ⟨hpb, le_rfl, Or.inl rfl, hbuf⟩
  | (o, b) :: rest, pos, buf, got, r, hpb, hle, hbuf, h => by
    unfold Reader.assimilateLoop at h
    by_cases ho : o = pos
    · subst ho
      by_cases hreq : requested < o + b.length
      · rw [if_neg (not_not.2 rfl), if_pos hreq] at h
        cases h
      rw [if_neg (not_not.2 rfl), if_neg hreq] at h
      have hb : b <+: disk.drop o := hpb (o, b) List.mem_cons_self
      have hbuf' : buf ++ b = (disk.drop readPos).take (o + b.length - readPos) := by
        rw [show o + b.length - readPos = (o - readPos) + b.length by omega, List.take_add,
          ← hbuf, List.drop_drop, Nat.add_sub_cancel' hle]
        exact congrArg (buf ++ ·) (List.prefix_iff_eq_take.1 hb)
      obtain ⟨h1, h2, h3, h4⟩ := assimilateLoop_sound requested readPos rest _ _ true r
        (fun p hp => hpb p (List.mem_cons_of_mem _ hp)) (by omega) hbuf' h
      refine ⟨h1, by omega, Or.inr ?_, h4⟩
      rcases h3 with h3 | h3 <;> omega
    · rw [if_pos ho] at h
      cases h
      exact ⟨hpb, le_rfl, Or.inl rfl, hbuf⟩

namespace ReadInv

theorem wake (h : ReadInv js disk p0 es rd) (res : ℤ) : ReadInv js disk p0 es (rd.wake res) := by
  unfold Reader.wake
  split
  · exact h
  · exact { h with }

theorem prefetch (h : ReadInv js disk p0 es rd) (hp : rd.prefetch cfg = some rd') :
    ReadInv js disk p0 es rd' := by
  have h' := h.toStreamInv.prefetch hp
  obtain ⟨rs, q, t, rfl, -, -⟩ := Reader.prefetch_eq hp
  exact { h' with readable_sound := h.readable_sound }

/-- Waking the waiter when the reader turned readable or reached the end keeps the invariant. -/
theorem wake_if (h : ReadInv js disk p0 es rd) (c : Bool) :
    ReadInv js disk p0 es (if c then rd.wake 0 else rd) := by
  split
  · exact h.wake 0
  · exact h

/-- Parking bytes that are the journal's at their offset keeps the invariant. -/
theorem park (h : ReadInv js disk p0 es rd) {offset : ℕ} {bl : List UInt8}
    (hbl : bl <+: disk.drop offset) :
    ReadInv js disk p0 es { rd with prefetchBuf := set rd.prefetchBuf offset bl } :=
  { h with
    prefetch_sound := fun p hp => by
      rcases mem_set hp with rfl | hp
      · exact hbl
      · exact h.prefetch_sound p hp }

theorem isReadablePublic (h : ReadInv js disk p0 es rd) {b : Bool}
    (hp : rd.isReadablePublic cfg = some (b, rd')) : ReadInv js disk p0 es rd' := by
  unfold Reader.isReadablePublic at hp
  split_ifs at hp
  · cases hp
    exact h
  · obtain ⟨rd₂, hp, heq⟩ := Option.map_eq_some_iff.1 hp
    cases heq
    exact h.prefetch hp

theorem waitForReadable (h : ReadInv js disk p0 es rd) {c : ℕ}
    (hw : rd.waitForReadable c = some rd') : ReadInv js disk p0 es rd' := by
  unfold Reader.waitForReadable at hw
  split_ifs at hw <;> cases hw <;> exact { h with }

variable (hlen : ∀ e ∈ es, e.length < 2 ^ 32) (hdisk : js.stream p0 es <+: disk.drop p0)
include hlen hdisk

/-- `_assimilate_prefetch` on such a reader throws nothing and keeps the invariant. -/
theorem assimilatePrefetch (h : ReadInv js disk p0 es rd) {res : Except Reader Reader}
    (ha : rd.assimilatePrefetch js = some res) :
    ∃ rd', res = .ok rd' ∧ ReadInv js disk p0 es rd' := by
  unfold Reader.assimilatePrefetch at ha
  obtain ⟨⟨pb, pos, buf, gotAny⟩, hloop, rfl⟩ := Option.map_eq_some_iff.1 ha
  obtain ⟨hpb, hle, hreq, hbuf⟩ := assimilateLoop_sound rd.requestedPos rd.readPos rd.prefetchBuf
    rd.receivedPos rd.readBuf false _ h.prefetch_sound h.read_le h.readBuf_eq hloop
  dsimp only at hpb hle hreq hbuf
  have h₁ : StreamInv js disk p0 es
      { rd with prefetchBuf := pb, receivedPos := pos, readBuf := buf } :=
    { h.toStreamInv with
      read_le := h.read_le.trans hle
      received_le := by
        rcases hreq with rfl | hreq
        · exact h.received_le
        · exact hreq
      readBuf_eq := hbuf
      prefetch_sound := hpb }
  cases gotAny
  · refine ⟨_, rfl, ReadInv.wake_if { h₁ with readable_sound := fun hr => ?_ } _⟩
    obtain ⟨e, rest, hd, hfull⟩ := h.readable_sound hr
    refine ⟨e, rest, hd, hfull.trans ?_⟩
    show rd.readBuf.length ≤ buf.length
    rw [h.readBuf_eq, hbuf, List.length_take, List.length_take]
    omega
  · obtain ⟨b, t, hr, h₂⟩ := h₁.readInv_isReadable hlen hdisk
    simp only [if_true, hr]
    exact ⟨_, rfl, ReadInv.wake_if h₂ _⟩

omit hdisk in
/-- Taking the next entry off `read_buf` moves the reader to the start of the one after. -/
theorem takeEntry (h : ReadInv js disk p0 es rd) {e : List UInt8} {rest : List (List UInt8)}
    {c : List UInt8} (hd : es.drop rd.entries.length = e :: rest)
    (hbuf : rd.readBuf = js.envelope e (UInt64.ofNat rd.readPos) ++ c) :
    StreamInv js disk p0 es
      { rd with readBuf := c,
                readPos := rd.readPos + (js.envelope e (UInt64.ofNat rd.readPos)).length,
                entries := rd.entries ++ [e] } := by
  have hes : es = rd.entries ++ e :: rest := by
    rw [← hd, List.prefix_iff_eq_append.1 h.entries_prefix]
  have hlenE : ∀ x ∈ rd.entries, x.length < 2 ^ 32 := fun x hx => hlen x (by
    rw [hes]
    exact List.mem_append_left _ hx)
  have hread := h.readBuf_eq
  have hbuflen :
      (js.envelope e (UInt64.ofNat rd.readPos)).length ≤ rd.receivedPos - rd.readPos := by
    have := congrArg List.length hread
    rw [hbuf, List.length_append, List.length_take] at this
    omega
  refine { h.toStreamInv with
    entries_prefix := ?_, readPos_eq := ?_, read_le := ?_, readBuf_eq := ?_ }
  · rw [hes]
    exact (List.prefix_append_right_inj rd.entries).2 ⟨rest, rfl⟩
  · show rd.readPos + _ = p0 + (js.stream p0 (rd.entries ++ [e])).length
    rw [js.stream_append p0 rd.entries [e] hlenE, ← h.readPos_eq, List.length_append,
      JournalStream.stream, JournalStream.stream, List.append_nil, h.readPos_eq]
    omega
  · show rd.readPos + _ ≤ rd.receivedPos
    have := h.read_le
    omega
  · show c = (disk.drop (rd.readPos + _)).take (rd.receivedPos - (rd.readPos + _))
    have hc := congrArg (List.drop (js.envelope e (UInt64.ofNat rd.readPos)).length) hread
    rwa [hbuf, List.drop_left, List.drop_take, List.drop_drop, Nat.sub_sub] at hc

omit hlen hdisk in
/-- The start pointer `read` hands back is the entry's position, in the resilient format. -/
theorem startPtr_ok (js : JournalStream) (x : UInt64) :
    ¬ (js.resilient = true ∧ (if js.resilient then x else 0) ≠ x) := by
  cases js.resilient <;> simp

/-- `try_read_entry` keeps the invariant: a readable reader holds the next whole entry, which
`read` takes off with its start pointer at `read_pos`. -/
theorem tryReadEntry (h : ReadInv js disk p0 es rd) {b : Bool}
    (ht : rd.tryReadEntry cfg js = some (b, rd')) : ReadInv js disk p0 es rd' := by
  unfold Reader.tryReadEntry at ht
  cases hr : rd.readable
  · simp only [hr, Bool.not_false, if_true, Option.some.injEq, Prod.mk.injEq] at ht
    rw [← ht.2]
    exact h
  obtain ⟨e, rest, hd, hfull⟩ := h.readable_sound hr
  have he : e.length < 2 ^ 32 := hlen e (List.mem_of_mem_drop (hd ▸ List.mem_cons_self))
  have hpre := h.readBuf_prefix hlen hdisk
  rw [hd, JournalStream.stream] at hpre
  obtain ⟨c, hc, -⟩ := Wire.prefix_append_of_length_le hpre hfull
  have h₁ := h.takeEntry hlen hd hc
  obtain ⟨b', t, hr', h₂⟩ := h₁.readInv_isReadable hlen hdisk
  rw [if_neg (by simp [hr]), hc, js.read_envelope he] at ht
  dsimp only at ht
  rw [if_neg (startPtr_ok js _), hr'] at ht
  obtain ⟨rd₂, hp, heq⟩ := Option.map_eq_some_iff.1 ht
  cases heq
  exact h₂.prefetch hp

/-- `_finish_read` keeps the invariant when a read that succeeds hands back the journal's
bytes: a failed or short read only notes the error. -/
theorem finishRead (h : ReadInv js disk p0 es rd) {res : ℤ} {offset : ℕ} {bl : List UInt8}
    (hbl : 0 ≤ res → bl <+: disk.drop offset)
    (hf : rd.finishRead cfg js res offset bl = some rd') : ReadInv js disk p0 es rd' := by
  unfold Reader.finishRead at hf
  split at hf
  · cases hf
  rename_i length _
  have hbase : ∀ x : ℤ,
      ReadInv js disk p0 es { rd with reads := erase rd.reads offset, error := x } :=
    fun x => { h with }
  by_cases hres : res < 0
  · simp only [hres, if_true, ne_eq, show res ≠ 0 by omega, not_false_eq_true] at hf
    cases hf
    exact (hbase res).wake res
  by_cases hshort : bl.length < length
  · simp only [hres, hshort, if_true, if_false, ne_eq, einval, Int.reduceNeg, reduceCtorEq,
      not_false_eq_true] at hf
    cases hf
    exact (hbase einval).wake einval
  simp only [hres, hshort, if_false] at hf
  split_ifs at hf with herr
  · cases hf
    exact (hbase rd.error).wake rd.error
  have hpark := (hbase rd.error).park (hbl (by omega))
  split at hf
  · cases hf
  · rename_i r hr
    obtain ⟨rd₂, hrd₂, -⟩ := hpark.assimilatePrefetch hlen hdisk hr
    cases hrd₂
  · rename_i r hr
    obtain ⟨rd₂, hrd₂, h₂⟩ := hpark.assimilatePrefetch hlen hdisk hr
    cases hrd₂
    exact h₂.prefetch hf

/-- Every call and every completion with the journal's bytes keeps the invariant. -/
theorem step (h : ReadInv js disk p0 es rd) {ev : ReadEvent} (hev : ev.Honest disk)
    (hs : rd.step cfg js ev = some rd') : ReadInv js disk p0 es rd' := by
  cases ev with
  | isReadable =>
    obtain ⟨⟨b, rd₂⟩, hp, rfl⟩ := Option.map_eq_some_iff.1 hs
    exact h.isReadablePublic hp
  | waitForReadable c => exact h.waitForReadable hs
  | tryReadEntry =>
    obtain ⟨⟨b, rd₂⟩, ht, rfl⟩ := Option.map_eq_some_iff.1 hs
    exact h.tryReadEntry hlen hdisk ht
  | finishRead res offset bl => exact h.finishRead hlen hdisk hev hs

end ReadInv

/-- The reader `recover` leaves at `expire_pos`, with the journal's end where the entries end. -/
theorem readInv_init (prefetchPeriods : ℕ) :
    ReadInv js disk p0 es (Reader.init cfg prefetchPeriods p0 (p0 + (js.stream p0 es).length)) where
  entries_prefix := List.nil_prefix
  readPos_eq := by simp [Reader.init, JournalStream.stream]
  writePos_eq := rfl
  read_le := le_rfl
  received_le := le_rfl
  requested_le := Nat.le_add_right _ _
  readBuf_eq := by simp [Reader.init]
  prefetch_sound := fun _ hp => absurd hp List.not_mem_nil
  readable_sound := fun h => absurd h Bool.false_ne_true

/-- Whatever order the reads complete in, and whichever of them fail or come back short, the
entries the reader takes off are the first entries `append_entry` wrote, in order and byte for
byte; it stands where the next one starts; and the journal's end stays where the entries end,
as `_is_readable` never takes the last entry for a partial one. -/
theorem read_entries_in_order (hlen : ∀ e ∈ es, e.length < 2 ^ 32)
    (hdisk : js.stream p0 es <+: disk.drop p0) (prefetchPeriods : ℕ) {evs : List ReadEvent}
    (hhonest : ∀ ev ∈ evs, ev.Honest disk)
    (hrun : run (Reader.step cfg js)
      (Reader.init cfg prefetchPeriods p0 (p0 + (js.stream p0 es).length)) evs = some rd) :
    rd.entries <+: es ∧ rd.readPos = p0 + (js.stream p0 rd.entries).length ∧
      rd.writePos = p0 + (js.stream p0 es).length := by
  have h := run_invariant_of_forall (Reader.step cfg js) (ReadInv js disk p0 es)
    (ReadEvent.Honest disk) (fun _ _ _ hs hev hstep => hs.step hlen hdisk hev hstep) evs _ rd
    (readInv_init prefetchPeriods) hhonest hrun
  exact ⟨h.entries_prefix, h.readPos_eq, h.writePos_eq⟩

/-- Two entries of a resilient journal from 0, read with 16-byte periods: the second object's
read completes before the first's. -/
def twoEntries : List (List UInt8) := [[7], [8, 9]]

def twoEntriesReads : List ReadEvent :=
  let disk := (JournalStream.mk 1).stream 0 twoEntries
  [.isReadable, .finishRead 0 16 ((disk.drop 16).take 16), .finishRead 0 0 (disk.take 16),
    .tryReadEntry, .finishRead 0 32 (disk.drop 32), .tryReadEntry]

theorem twoEntries_read_in_order : ∃ rd, run (Reader.step smallLayout ⟨1⟩)
      (Reader.init smallLayout 2 0 (0 + ((JournalStream.mk 1).stream 0 twoEntries).length))
      twoEntriesReads = some rd ∧
    (rd.entries <+: twoEntries ∧
      rd.readPos = 0 + ((JournalStream.mk 1).stream 0 rd.entries).length ∧
      rd.writePos = 0 + ((JournalStream.mk 1).stream 0 twoEntries).length) := by
  obtain ⟨rd, hrd⟩ : ∃ rd, run (Reader.step smallLayout ⟨1⟩)
      (Reader.init smallLayout 2 0 (0 + ((JournalStream.mk 1).stream 0 twoEntries).length))
      twoEntriesReads = some rd := ⟨_, rfl⟩
  have hdisk : (JournalStream.mk 1).stream 0 twoEntries <+:
      ((JournalStream.mk 1).stream 0 twoEntries).drop 0 := List.prefix_refl _
  exact ⟨rd, hrd, read_entries_in_order (by decide) hdisk 2 (by decide) hrd⟩

end Sound

end Lunule.Journaler
