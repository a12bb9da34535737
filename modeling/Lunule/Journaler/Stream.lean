import Lunule.Wire

/-!
`JournalStream` (`osdc/Journaler.cc`): the journal's bytes as a sequence of entries, each in an
envelope. The legacy format puts a 32-bit size before the entry. The resilient format puts a
64-bit sentinel and the size before it and the entry's start pointer, its position in the
journal, after it. `write` appends an envelope to a buffer, `readable` tells whether a buffer
holds a whole one and how many bytes it needs, and `read` takes one off the front of a buffer.

`readable` throws `malformed_input` on a wrong sentinel and the decoders throw `end_of_buffer`
when the buffer runs out. `read` asserts the sentinel, which its callers have checked with
`readable`; an assert that fails is `none`. `append_entry` writes each entry with the position it
starts at; `stream` is what it writes from a position on.
-/

namespace Lunule.Journaler

open Wire

/-- `JOURNAL_FORMAT_LEGACY`. -/
def journalFormatLegacy : UInt8 := 0

/-- `JOURNAL_FORMAT_RESILIENT`. -/
def journalFormatResilient : UInt8 := 1

/-- `JOURNAL_ENVELOPE_LEGACY`: the size. -/
def journalEnvelopeLegacy : ℕ := 4

/-- `JOURNAL_ENVELOPE_RESILIENT`: the size, the sentinel and the start pointer. -/
def journalEnvelopeResilient : ℕ := 4 + 8 + 8

/-- The `buffer::error`s of a journal stream. -/
inductive BufferError where
  | decode (e : DecodeError)
  | malformedInput
  deriving DecidableEq, Repr

structure JournalStream where
  format : UInt8
  deriving DecidableEq, Repr

namespace JournalStream

/-- `JournalStream::sentinel`. -/
def sentinel : UInt64 := 0x3141592653589793

/-- `format >= JOURNAL_FORMAT_RESILIENT`. -/
def resilient (js : JournalStream) : Bool := decide (journalFormatResilient ≤ js.format)

def getEnvelopeSize (js : JournalStream) : ℕ :=
  if js.resilient then journalEnvelopeResilient else journalEnvelopeLegacy

/-- The sentinel the resilient format puts first. -/
def getSentinel (resilient : Bool) : Decoder (Option UInt64) :=
  if resilient then some <$> getU64 else pure none

/-- The start pointer the resilient format puts last; 0 in the legacy one. -/
def getStartPtr (resilient : Bool) : Decoder UInt64 :=
  if resilient then getU64 else pure 0

/-- The rest of an envelope: the size, the entry, and the start pointer. -/
def getEntry (resilient : Bool) : Decoder (List UInt8 × UInt64) := do
  let entrySize ← getU32
  let entry ← getBytes entrySize.toNat
  let startPtr ← getStartPtr resilient
  pure (entry, startPtr)

/-- `readable(read_buf, &need)`: whether the buffer holds a whole entry, and `need`. -/
def readable (js : JournalStream) (readBuf : List UInt8) : Except BufferError (Bool × ℕ) :=
  -- enough for the prefix: the size, and the sentinel
  let need := if js.resilient then 4 + 8 else 4
  if readBuf.length < need then .ok (false, need)
  else match (getSentinel js.resilient).run readBuf with
    | .error e => .error (.decode e)
    | .ok (entrySentinel, p) =>
      if entrySentinel.any (· != sentinel) then .error .malformedInput
      else match getU32.run p with
        | .error e => .error (.decode e)
        | .ok (entrySize, _) =>
          -- enough for the whole envelope
          let need := js.getEnvelopeSize + entrySize.toNat
          .ok (decide (need ≤ readBuf.length), need)

/-- `read(from, &entry, &start_ptr)`: the entry, its start pointer, the bytes consumed, and what
is left of the buffer. -/
def read (js : JournalStream) (src : List UInt8) :
    Option (Except BufferError (List UInt8 × UInt64 × ℕ × List UInt8)) :=
  match (getSentinel js.resilient).run src with
  | .error e => some (.error (.decode e))
  | .ok (entrySentinel, p) =>
    -- asserted: `readable` has checked it
    if entrySentinel.any (· != sentinel) then none
    else match (getEntry js.resilient).run p with
      | .error e => some (.error (.decode e))
      | .ok ((entry, startPtr), rest) =>
        some (.ok (entry, startPtr, src.length - rest.length, rest))

/-- `write(entry, to, start_ptr)`: the buffer with the envelope appended, and the size it
reports, from the 32-bit `entry_size`. -/
def write (js : JournalStream) (entry buf : List UInt8) (startPtr : UInt64) : List UInt8 × ℕ :=
  let entrySize : UInt32 := UInt32.ofNat entry.length
  let buf := if js.resilient then buf ++ putU64 sentinel else buf
  let buf := buf ++ putU32 entrySize ++ entry
  let buf := if js.resilient then buf ++ putU64 startPtr else buf
  (buf, js.getEnvelopeSize + entrySize.toNat)

/-- The bytes `write` appends for an entry. -/
def envelope (js : JournalStream) (entry : List UInt8) (startPtr : UInt64) : List UInt8 :=
  (js.write entry [] startPtr).1

/-- What `append_entry` writes from `pos` on: each entry's envelope, with the position it starts
at, `write_pos` moving on by what `write` reports. -/
def stream (js : JournalStream) : ℕ → List (List UInt8) → List UInt8
  | _, [] => []
  | pos, e :: es =>
    js.envelope e (UInt64.ofNat pos) ++ stream js (pos + (js.write e [] (UInt64.ofNat pos)).2) es

variable (js : JournalStream) {entry : List UInt8}

/-! ## Envelopes -/

theorem envelope_eq (entry : List UInt8) (startPtr : UInt64) :
    js.envelope entry startPtr = (if js.resilient then putU64 sentinel else []) ++
      (putU32 (UInt32.ofNat entry.length) ++ entry ++
        if js.resilient then putU64 startPtr else []) := by
  cases h : js.resilient <;> simp [envelope, write, h]

theorem write_eq (entry buf : List UInt8) (startPtr : UInt64) :
    js.write entry buf startPtr =
      (buf ++ js.envelope entry startPtr,
        js.getEnvelopeSize + (UInt32.ofNat entry.length).toNat) := by
  cases h : js.resilient <;> simp [envelope, write, h]

theorem length_envelope (h : entry.length < 2 ^ 32) (startPtr : UInt64) :
    (js.envelope entry startPtr).length = js.getEnvelopeSize + entry.length := by
  have hs : (UInt32.ofNat entry.length).toNat = entry.length := UInt32.toNat_ofNat_of_lt' h
  rw [envelope_eq, getEnvelopeSize]
  cases js.resilient
  · simp [putU32, journalEnvelopeLegacy]
  · simp [putU64, putU32, journalEnvelopeResilient]
    omega

/-- For an entry whose length fits `entry_size`, `write` reports the bytes it appends. -/
theorem write_snd (h : entry.length < 2 ^ 32) (buf : List UInt8) (startPtr : UInt64) :
    (js.write entry buf startPtr).2 = (js.envelope entry startPtr).length := by
  rw [write_eq, length_envelope js h, UInt32.toNat_ofNat_of_lt' h]

/-! ## Reading an envelope back -/

theorem getSentinel_reads (resilient : Bool) :
    ReadsFrom (getSentinel resilient) (if resilient then putU64 sentinel else [])
      (if resilient then some sentinel else none) := by
  cases resilient
  · exact pure_reads none
  · exact (getU64_reads sentinel).map some

theorem getEntry_reads (h : entry.length < 2 ^ 32) (resilient : Bool) (startPtr : UInt64) :
    ReadsFrom (getEntry resilient)
      (putU32 (UInt32.ofNat entry.length) ++ entry ++
        if resilient then putU64 startPtr else [])
      (entry, if resilient then startPtr else 0) := by
  have hs : (UInt32.ofNat entry.length).toNat = entry.length := UInt32.toNat_ofNat_of_lt' h
  have hptr : ReadsFrom (getStartPtr resilient)
      (if resilient then putU64 startPtr else []) (if resilient then startPtr else 0) := by
    cases resilient
    · exact pure_reads 0
    · exact getU64_reads startPtr
  have hbody : ReadsFrom (getBytes (UInt32.ofNat entry.length).toNat) entry entry := by
    rw [hs]
    exact getBytes_reads entry
  rw [List.append_assoc]
  exact (getU32_reads _).bind (hbody.bind (hptr.bind_pure fun p => (entry, p)))

/-- The sentinel `write` puts first passes the check. -/
theorem any_sentinel (resilient : Bool) :
    (if resilient then some sentinel else none).any (· != sentinel) = false := by
  cases resilient <;> rfl

/-- `read` takes back what `write` appended: the entry, its start pointer in the resilient
format, and the bytes of its envelope, whatever follows it. -/
theorem read_envelope (h : entry.length < 2 ^ 32) (startPtr : UInt64) (rest : List UInt8) :
    js.read (js.envelope entry startPtr ++ rest) =
      some (.ok (entry, if js.resilient then startPtr else 0,
        (js.envelope entry startPtr).length, rest)) := by
  have hs := getSentinel_reads js.resilient
  have he := getEntry_reads h js.resilient startPtr
  rw [read, envelope_eq, List.append_assoc, hs]
  simp only [any_sentinel, Bool.false_eq_true, if_false]
  rw [he rest]
  simp only [List.length_append, ← Nat.add_assoc, Nat.add_sub_cancel]

/-- `readable` on a buffer holding the first bytes of a stream that starts with an envelope: it
throws nothing, and it says yes exactly when the whole envelope is there. -/
theorem readable_of_prefix (h : entry.length < 2 ^ 32) (startPtr : UInt64) {rest b : List UInt8}
    (hb : b <+: js.envelope entry startPtr ++ rest) :
    ∃ need, js.readable b = .ok (decide ((js.envelope entry startPtr).length ≤ b.length), need) ∧
      need ≤ (js.envelope entry startPtr).length ∧
      (b.length < (js.envelope entry startPtr).length → b.length < need) := by
  have hlen := length_envelope js h startPtr
  have hs : (UInt32.ofNat entry.length).toNat = entry.length := UInt32.toNat_ofNat_of_lt' h
  have hpre : (if js.resilient then 4 + 8 else 4) ≤ js.getEnvelopeSize := by
    unfold getEnvelopeSize journalEnvelopeResilient journalEnvelopeLegacy
    split_ifs <;> omega
  by_cases hshort : b.length < if js.resilient then 4 + 8 else 4
  · refine ⟨_, ?_, by omega, fun _ => hshort⟩
    rw [readable, if_pos hshort, decide_eq_false (by omega)]
  · have hx : ((if js.resilient then putU64 sentinel else []) ++
        putU32 (UInt32.ofNat entry.length)).length ≤ b.length := by
      cases hr : js.resilient <;> simp_all [putU64, putU32]
    have hb' : b <+: ((if js.resilient then putU64 sentinel else []) ++
        putU32 (UInt32.ofNat entry.length)) ++
          ((entry ++ if js.resilient then putU64 startPtr else []) ++ rest) := by
      simpa only [envelope_eq, List.append_assoc] using hb
    obtain ⟨c, rfl, -⟩ := prefix_append_of_length_le hb' hx
    refine ⟨js.getEnvelopeSize + entry.length, ?_, by omega, by omega⟩
    rw [readable, if_neg hshort, List.append_assoc, getSentinel_reads]
    simp only [any_sentinel, Bool.false_eq_true, if_false]
    rw [getU32_reads]
    simp only [hs, hlen]

/-! ## Streams of entries -/

theorem envelope_ne_nil (entry : List UInt8) (startPtr : UInt64) :
    js.envelope entry startPtr ≠ [] := by
  apply List.ne_nil_of_length_pos
  rw [envelope_eq]
  simp only [List.length_append, putU32, length_leBytes]
  omega

/-- What `append_entry` writes for a list of entries is what it writes for the first part and
then, from where that ends, for the rest, once every entry fits `entry_size`. The induction is
on the first part. -/
theorem stream_append : ∀ (pos : ℕ) (as bs : List (List UInt8)), (∀ e ∈ as, e.length < 2 ^ 32) →
    js.stream pos (as ++ bs) = js.stream pos as ++ js.stream (pos + (js.stream pos as).length) bs
  | pos, [], bs, _ => by simp [stream]
  | pos, a :: as, bs, hlen => by
    have ha := hlen a List.mem_cons_self
    have ih := stream_append (pos + (js.envelope a (UInt64.ofNat pos)).length) as bs
      fun e he => hlen e (List.mem_cons_of_mem a he)
    rw [List.cons_append, stream, stream, write_snd js ha, ih, List.append_assoc,
      List.length_append,
      Nat.add_assoc]

/-- Each entry of a stream reads back from where its envelope starts: `readable` finds the whole
envelope there, and `read` returns the entry, the position it was written at (in the resilient
format), the size of its envelope and the bytes of the stream after it. -/
theorem read_stream_entry (pos : ℕ) (as bs : List (List UInt8)) (e : List UInt8)
    (hlen : ∀ x ∈ as ++ e :: bs, x.length < 2 ^ 32) :
    (∃ need, JournalStream.readable js
        ((JournalStream.stream js pos (as ++ e :: bs)).drop
          (JournalStream.stream js pos as).length) =
          .ok (true, need)) ∧
      JournalStream.read js
          ((JournalStream.stream js pos (as ++ e :: bs)).drop
            (JournalStream.stream js pos as).length) =
        some (.ok (e,
          if js.resilient then UInt64.ofNat (pos + (JournalStream.stream js pos as).length) else 0,
          (JournalStream.envelope js e
            (UInt64.ofNat (pos + (JournalStream.stream js pos as).length))).length,
          JournalStream.stream js (pos + (JournalStream.stream js pos as).length +
            (JournalStream.envelope js e
              (UInt64.ofNat (pos + (JournalStream.stream js pos as).length))).length) bs)) := by
  have he : e.length < 2 ^ 32 := hlen e (List.mem_append_right _ List.mem_cons_self)
  have htail : (js.stream pos (as ++ e :: bs)).drop (js.stream pos as).length =
      js.envelope e (UInt64.ofNat (pos + (js.stream pos as).length)) ++
        js.stream (pos + (js.stream pos as).length +
          (js.envelope e (UInt64.ofNat (pos + (js.stream pos as).length))).length) bs := by
    rw [stream_append js pos as (e :: bs) fun x hx => hlen x (List.mem_append_left _ hx),
      List.drop_left, stream, write_snd js he]
  rw [htail]
  refine ⟨?_, read_envelope js he _ _⟩
  obtain ⟨need, hr, -, -⟩ := readable_of_prefix js he
    (UInt64.ofNat (pos + (js.stream pos as).length)) (List.prefix_refl _)
  refine ⟨need, ?_⟩
  rw [hr, List.length_append, decide_eq_true (Nat.le_add_right _ _)]

theorem read_stream_entry_second :
    (∀ x ∈ [[7]] ++ [[8, 9]], x.length < 2 ^ 32) ∧
      (∃ need, JournalStream.readable ⟨1⟩
          ((JournalStream.stream ⟨1⟩ 0 [[7], [8, 9]]).drop
            (JournalStream.stream ⟨1⟩ 0 [[7]]).length) =
            .ok (true, need)) ∧
        JournalStream.read ⟨1⟩
            ((JournalStream.stream ⟨1⟩ 0 [[7], [8, 9]]).drop
              (JournalStream.stream ⟨1⟩ 0 [[7]]).length) =
          some (.ok ([8, 9], UInt64.ofNat (0 + (JournalStream.stream ⟨1⟩ 0 [[7]]).length),
            (JournalStream.envelope ⟨1⟩ [8, 9]
              (UInt64.ofNat (0 + (JournalStream.stream ⟨1⟩ 0 [[7]]).length))).length, [])) :=
  ⟨by decide, read_stream_entry ⟨1⟩ 0 [[7]] [] [8, 9] (by decide)⟩

end JournalStream

end Lunule.Journaler
