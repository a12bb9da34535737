import Mathlib.Order.Defs.LinearOrder
import Lunule.OrdMap

/-!
Byte encoders and decoders: little-endian words, a map sent as a 32-bit count and its entries
in key order, the elements of a fixed-size array decoded in place, and a versioned struct sent
behind a version byte, a compatibility byte and a 32-bit body length. An encoder is a function
to bytes; a decoder consumes a prefix of its input and fails when the input runs out or is
malformed. `ReadsFrom d b a` says that `d` reads `a` from the bytes `b`, whatever follows them.
It is closed under `bind`, so the reading of a composite decoder is assembled from the readings
of its parts.
-/

instance int32LinearOrder : LinearOrder Int32 where
  le_refl := Int32.le_refl
  le_trans _ _ _ := Int32.le_trans
  le_antisymm _ _ := Int32.le_antisymm
  le_total := Int32.le_total
  lt_iff_le_not_ge a b := by
    rw [← Int32.not_le]
    exact ⟨fun h => ⟨(Int32.le_total a b).resolve_right h, h⟩, And.right⟩
  toDecidableLE := inferInstance
  toDecidableEq := inferInstance
  toDecidableLT := inferInstance
  compare_eq_compareOfLessAndEq _ _ := rfl

namespace Wire

inductive DecodeError where
  | endOfBuffer
  | oldVersion (v compat : UInt8)
  | pastEnd
  deriving DecidableEq, Repr

abbrev Decoder (α : Type) := StateT (List UInt8) (Except DecodeError) α

/-- `d` reads `a` from the front of `b ++ rest` and leaves `rest`. -/
def ReadsFrom {α : Type} (d : Decoder α) (b : List UInt8) (a : α) : Prop :=
  ∀ rest, d.run (b ++ rest) = .ok (a, rest)

section Reads

variable {α β : Type} {d : Decoder α} {b b' : List UInt8} {a : α}

theorem ReadsFrom.bind {k : α → Decoder β} {c : β} (h : ReadsFrom d b a)
    (hk : ReadsFrom (k a) b' c) : ReadsFrom (d >>= k) (b ++ b') c := by
  intro rest
  rw [List.append_assoc, StateT.run_bind, h (b' ++ rest)]
  exact hk rest

theorem ReadsFrom.bind_pure (h : ReadsFrom d b a) (f : α → β) :
    ReadsFrom (d >>= fun x => pure (f x)) b (f a) := by
  intro rest
  rw [StateT.run_bind, h rest]
  rfl

theorem ReadsFrom.map (h : ReadsFrom d b a) (f : α → β) : ReadsFrom (f <$> d) b (f a) := by
  intro rest
  rw [StateT.run_map, h rest]
  rfl

theorem ReadsFrom.congr_bytes (h : ReadsFrom d b a) (hb : b = b') : ReadsFrom d b' a :=
  hb ▸ h

theorem pure_reads (a : α) : ReadsFrom (pure a : Decoder α) [] a := fun _ => rfl

/-- A buffer that starts like `x ++ y` and is at least as long as `x` is `x` and then a buffer
that starts like `y`: what a decoder of `x` leaves of a partly received stream. -/
theorem prefix_append_of_length_le {x y b' : List UInt8} (hb : b' <+: x ++ y)
    (hx : x.length ≤ b'.length) : ∃ c, b' = x ++ c ∧ c <+: y := by
  refine ⟨b'.drop x.length, ?_, ?_⟩
  · have hx' : b'.take x.length = x := by
      have ht := (List.prefix_iff_eq_take.1 hb)
      rw [ht, List.take_take, Nat.min_eq_left (by simpa using hx), List.take_left' rfl]
    calc b' = b'.take x.length ++ b'.drop x.length := (List.take_append_drop _ _).symm
      _ = x ++ b'.drop x.length := by rw [hx']
  · simpa using hb.drop x.length

/-- The first `n` bytes of a buffer that starts like `x`, for `n` within `x`, are a prefix of
`x`: what has been received of a stream. -/
theorem take_prefix_of_le {x b' : List UInt8} (hx : x <+: b') {n : ℕ} (hn : n ≤ x.length) :
    b'.take n <+: x := by
  have ht : b'.take n = x.take n := by
    rw [List.prefix_iff_eq_take.1 hx, List.take_take, Nat.min_eq_left hn]
  rw [ht]
  exact List.take_prefix n x

end Reads

/-! ### Words -/

/-- The `w` low bytes of `n`, least significant first. -/
def leBytes : ℕ → ℕ → List UInt8
  | 0, _ => []
  | w + 1, n => UInt8.ofNat n :: leBytes w (n / 256)

/-- The number whose little-endian bytes these are. -/
def leNat : List UInt8 → ℕ
  | [] => 0
  | x :: l => x.toNat + 256 * leNat l

@[simp] theorem length_leBytes (w n : ℕ) : (leBytes w n).length = w := by
  induction w generalizing n with
  | zero => rfl
  | succ w ih => simp [leBytes, ih]

theorem leNat_leBytes (w n : ℕ) : leNat (leBytes w n) = n % 256 ^ w := by
  induction w generalizing n with
  | zero => simp [leBytes, leNat, Nat.mod_one]
  | succ w ih =>
    rw [leBytes, leNat, ih, UInt8.toNat_ofNat', show n % 2 ^ 8 = n % 256 from rfl,
      Nat.pow_succ', Nat.mod_mul]

theorem leNat_leBytes_of_lt {w n : ℕ} (h : n < 256 ^ w) : leNat (leBytes w n) = n := by
  rw [leNat_leBytes, Nat.mod_eq_of_lt h]

/-- The next `n` bytes. -/
def getBytes (n : ℕ) : Decoder (List UInt8) := fun s =>
  if n ≤ s.length then .ok (s.take n, s.drop n) else .error .endOfBuffer

theorem getBytes_reads (b : List UInt8) : ReadsFrom (getBytes b.length) b b := by
  intro rest
  simp [getBytes, StateT.run]

/-- Read `w` bytes as a little-endian number. -/
def getLe (w : ℕ) : Decoder ℕ := leNat <$> getBytes w

theorem getLe_reads {w n : ℕ} (h : n < 256 ^ w) : ReadsFrom (getLe w) (leBytes w n) n := by
  have hr := (getBytes_reads (leBytes w n)).map leNat
  rwa [length_leBytes, leNat_leBytes_of_lt h] at hr

def putU8 (x : UInt8) : List UInt8 := [x]

def getU8 : Decoder UInt8 := fun s =>
  match s with
  | [] => .error .endOfBuffer
  | x :: s => .ok (x, s)

theorem getU8_reads (x : UInt8) : ReadsFrom getU8 (putU8 x) x := fun _ => rfl

def putU32 (x : UInt32) : List UInt8 := leBytes 4 x.toNat

def getU32 : Decoder UInt32 := UInt32.ofNat <$> getLe 4

theorem getU32_reads (x : UInt32) : ReadsFrom getU32 (putU32 x) x := by
  have hr := (getLe_reads (w := 4) x.toNat_lt).map UInt32.ofNat
  rwa [UInt32.ofNat_toNat] at hr

def putU64 (x : UInt64) : List UInt8 := leBytes 8 x.toNat

def getU64 : Decoder UInt64 := UInt64.ofNat <$> getLe 8

theorem getU64_reads (x : UInt64) : ReadsFrom getU64 (putU64 x) x := by
  have hr := (getLe_reads (w := 8) x.toNat_lt).map UInt64.ofNat
  rwa [UInt64.ofNat_toNat] at hr

/-- A signed word goes as its two's complement bits. -/
def putS32 (x : Int32) : List UInt8 := putU32 x.toUInt32

def getS32 : Decoder Int32 := UInt32.toInt32 <$> getU32

theorem getS32_reads (x : Int32) : ReadsFrom getS32 (putS32 x) x := by
  have hr := (getU32_reads x.toUInt32).map UInt32.toInt32
  rwa [Int32.toInt32_toUInt32] at hr

/-- A double as its IEEE bit pattern: the codec copies the eight bytes and reads nothing else. -/
structure F64 where
  bits : UInt64
  deriving DecidableEq, Repr

def putF64 (x : F64) : List UInt8 := putU64 x.bits

def getF64 : Decoder F64 := F64.mk <$> getU64

theorem getF64_reads (x : F64) : ReadsFrom getF64 (putF64 x) x :=
  (getU64_reads x.bits).map F64.mk

/-! ### Maps -/

section Maps

variable {κ ν : Type} [LinearOrder κ]

def putEntries (putK : κ → List UInt8) (putV : ν → List UInt8) (m : List (κ × ν)) :
    List UInt8 :=
  m.flatMap fun e => putK e.1 ++ putV e.2

/-- A map as its size in 32 bits and then its entries in key order. -/
def putMap (putK : κ → List UInt8) (putV : ν → List UInt8) (m : List (κ × ν)) : List UInt8 :=
  putU32 (UInt32.ofNat m.length) ++ putEntries putK putV m

/-- `n` entries, each assigned into the map read so far: a repeated key keeps its last value. -/
def getEntries (getK : Decoder κ) (getV : Decoder ν) : ℕ → List (κ × ν) → Decoder (List (κ × ν))
  | 0, m => pure m
  | n + 1, m => do
    let k ← getK
    let v ← getV
    getEntries getK getV n (OrdMap.set m k v)

/-- Read the size, clear the map and read the entries. -/
def getMap (getK : Decoder κ) (getV : Decoder ν) : Decoder (List (κ × ν)) := do
  let n ← getU32
  getEntries getK getV n.toNat []

variable {putK : κ → List UInt8} {putV : ν → List UInt8} {getK : Decoder κ} {getV : Decoder ν}

theorem getEntries_reads (hk : ∀ k, ReadsFrom getK (putK k) k)
    (hv : ∀ v, ReadsFrom getV (putV v) v) {m : List (κ × ν)} (hm : OrdMap.Sorted m) :
    ∀ acc : List (κ × ν), (∀ j ∈ OrdMap.keys acc, ∀ k ∈ OrdMap.keys m, j < k) →
      ReadsFrom (getEntries getK getV m.length acc) (putEntries putK putV m) (acc ++ m) := by
  induction m with
  | nil =>
    intro acc _ rest
    simp [getEntries, putEntries]
    rfl
  | cons e m ih =>
    obtain ⟨k, v⟩ := e
    intro acc hlt
    have hm' : (∀ j ∈ OrdMap.keys m, k < j) ∧ OrdMap.Sorted m := by
      simpa [OrdMap.Sorted] using hm
    have hacc : ∀ j ∈ OrdMap.keys acc, j < k := fun j hj => hlt j hj k (by simp)
    have hnext : ∀ j ∈ OrdMap.keys (acc ++ [(k, v)]), ∀ k' ∈ OrdMap.keys m, j < k' := by
      intro j hj k' hk'
      simp only [OrdMap.keys_append, OrdMap.keys_cons, OrdMap.keys_nil, List.mem_append,
        List.mem_singleton] at hj
      rcases hj with hj | rfl
      · exact hlt j hj k' (by simp [hk'])
      · exact hm'.1 k' hk'
    have hrest : ReadsFrom (getEntries getK getV m.length (OrdMap.set acc k v))
        (putEntries putK putV m) (acc ++ (k, v) :: m) := by
      rw [OrdMap.set_eq_append v hacc]
      simpa using ih hm'.2 _ hnext
    exact ((hk k).bind ((hv v).bind hrest)).congr_bytes (by simp [putEntries])

theorem getMap_reads (hk : ∀ k, ReadsFrom getK (putK k) k) (hv : ∀ v, ReadsFrom getV (putV v) v)
    {m : List (κ × ν)} (hm : OrdMap.Sorted m) (hlen : m.length < 2 ^ 32) :
    ReadsFrom (getMap getK getV) (putMap putK putV m) m := by
  have hn : (UInt32.ofNat m.length).toNat = m.length := UInt32.toNat_ofNat_of_lt' hlen
  refine (getU32_reads _).bind ?_
  rw [hn]
  simpa using getEntries_reads hk hv hm [] (by simp)

end Maps

/-! ### Arrays decoded in place -/

/-- Decode into each element of a fixed-size array in turn; the size is kept. -/
def getEach {β : Type} (dec : β → Decoder β) :
    (l : List β) → Decoder {l' : List β // l'.length = l.length}
  | [] => pure ⟨[], rfl⟩
  | b :: l => do
    let b' ← dec b
    let l' ← getEach dec l
    pure ⟨b' :: l'.1, by simp [l'.2]⟩

theorem getEach_reads {α β : Type} {dec : β → Decoder β} {enc : α → List UInt8}
    {g : α → β → β} (h : ∀ a b, ReadsFrom (dec b) (enc a) (g a b)) :
    ∀ (as : List α) (l : List β) (hl : as.length = l.length),
      ReadsFrom (getEach dec l) (as.flatMap enc) ⟨List.zipWith g as l, by simp [hl]⟩
  | [], [], _ => fun _ => rfl
  | a :: as, b :: l, hl => by
    have hrest := getEach_reads h as l (by simpa using hl)
    rw [List.flatMap_cons]
    exact (h a b).bind (hrest.bind_pure _)

/-! ### Versioned structs -/

/-- A struct body behind its version, its compatibility version and its length. -/
def putVersioned (v compat : UInt8) (body : List UInt8) : List UInt8 :=
  putU8 v ++ putU8 compat ++ putU32 (UInt32.ofNat body.length) ++ body

/-- The body of a struct of length `len`: it must not read past the length, and what it leaves
of the length is skipped. -/
def getBody {α : Type} (len : ℕ) (body : Decoder α) : Decoder α := fun s =>
  if s.length < len then .error .pastEnd
  else
    match body.run s with
    | .ok (a, s') =>
      if s.length - s'.length ≤ len then .ok (a, s'.drop (len - (s.length - s'.length)))
      else .error .pastEnd
    | .error e => .error e

/-- A versioned struct that decoders of version `v` read: the compatibility byte is present from
version `compatv` on and the length from version `lenv` on; the body sees the struct's version. -/
def getVersioned {α : Type} (v compatv lenv : UInt8) (body : UInt8 → Decoder α) : Decoder α := do
  let structV ← getU8
  if compatv ≤ structV then
    let structCompat ← getU8
    if v < structCompat then throw (.oldVersion v structCompat)
  if lenv ≤ structV then
    let structLen ← getU32
    getBody structLen.toNat (body structV)
  else
    body structV

theorem getBody_reads {α : Type} {body : Decoder α} {b : List UInt8} {a : α}
    (h : ReadsFrom body b a) : ReadsFrom (getBody b.length body) b a := by
  intro rest
  have hlen : ¬(b ++ rest).length < b.length := by simp
  simp only [StateT.run, getBody, hlen, if_false]
  rw [show body (b ++ rest) = .ok (a, rest) from h rest]
  simp

theorem getVersioned_reads {α : Type} {v compatv lenv structV structCompat : UInt8}
    {body : UInt8 → Decoder α} {b : List UInt8} {a : α} (hcompatv : compatv ≤ structV)
    (hcompat : structCompat ≤ v) (hlenv : lenv ≤ structV) (hlen : b.length < 2 ^ 32)
    (h : ReadsFrom (body structV) b a) :
    ReadsFrom (getVersioned v compatv lenv body) (putVersioned structV structCompat b) a := by
  have hn : (UInt32.ofNat b.length).toNat = b.length := UInt32.toNat_ofNat_of_lt' hlen
  have hv : ¬v < structCompat := UInt8.not_lt.2 hcompat
  unfold getVersioned putVersioned
  simp only [List.append_assoc]
  refine (getU8_reads structV).bind ?_
  rw [if_pos hcompatv]
  refine (getU8_reads structCompat).bind ?_
  rw [if_neg hv, if_pos hlenv]
  refine (getU32_reads _).bind ?_
  rw [hn]
  exact getBody_reads h

end Wire
