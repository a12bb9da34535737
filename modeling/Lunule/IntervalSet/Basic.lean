import Mathlib.Algebra.Group.Nat.Defs
import Mathlib.Data.Fin.Basic
import Lunule.Intervals
import Lunule.Runs

/-!
`interval_set<uint64_t>` of `include/interval_set.h`: a `std::map` from the start of
each interval to its length, and `_size`, an `int64_t` that tracks the total length.
The map is a sorted association list; an iterator into it is the suffix of the list it
points at. Offsets are 64-bit and wrap, as `Fin (2 ^ 64)` does; `_size` is kept as the
value of its `int64_t`. An `assert` or `ceph_abort` that fails is `none`.

This module has the lookups `find_inc` and `find_adj`, the queries `contains`,
`range_start`, `range_end` and `end_after`, and the updates `insert`, `erase`,
`insert(const interval_set&)` and `subtract`, with the representation invariant and
what each update does to the denoted set.
-/

namespace Lunule

open OrdMap Intervals Runs

/-- `uint64_t`. -/
abbrev IntervalSet.U64 := Fin (2 ^ 64)

/-- The modulus is positive, which `uint64_t` literals need. -/
instance IntervalSet.u64NeZero : NeZero (2 ^ 64 : ℕ) := ⟨(Nat.two_pow_pos 64).ne'⟩

structure IntervalSet where
  size : ℤ
  m : List (IntervalSet.U64 × IntervalSet.U64)
  deriving DecidableEq, Repr

namespace IntervalSet

/-- The `int64_t` a 64-bit value is read as. -/
def toInt64 (z : ℤ) : ℤ := z.bmod (2 ^ 64)

def empty : IntervalSet := ⟨0, []⟩

/-- `find_inc`: the first interval that ends after `start`. -/
def findInc (m : List (U64 × U64)) (start : U64) : List (U64 × U64) :=
  let p := m.dropWhile fun e => decide (e.1 < start)
  match (m.takeWhile fun e => decide (e.1 < start)).getLast? with
  | none => p
  | some q =>
    -- `p == m.end() || p->first > start`: step back to the interval before
    if p.head?.all fun e => decide (start < e.1) then
      if q.1 + q.2 ≤ start then p else q :: p
    else p

/-- `find_adj`: the first interval that ends at or after `start`. -/
def findAdj (m : List (U64 × U64)) (start : U64) : List (U64 × U64) :=
  let p := m.dropWhile fun e => decide (e.1 < start)
  match (m.takeWhile fun e => decide (e.1 < start)).getLast? with
  | none => p
  | some q =>
    if p.head?.all fun e => decide (start < e.1) then
      if q.1 + q.2 < start then p else q :: p
    else p

/-- `contains(i, &pstart, &plen)`: the interval holding `i`, if any. -/
def contains (s : IntervalSet) (i : U64) : Option (U64 × U64) :=
  match findInc s.m i with
  | [] => none
  | p :: _ => if i < p.1 then none else if p.1 + p.2 ≤ i then none else some p

/-- `contains(start, len)`. -/
def containsRange (s : IntervalSet) (start len : U64) : Bool :=
  match findInc s.m start with
  | [] => false
  | p :: _ =>
    if start < p.1 then false
    else if p.1 + p.2 ≤ start then false
    else if p.1 + p.2 < start + len then false
    else true

def rangeStart (s : IntervalSet) : Option U64 := s.m.head?.map Prod.fst

def rangeEnd (s : IntervalSet) : Option U64 := s.m.getLast?.map fun p => p.1 + p.2

/-- `end_after(start)`: the end of the interval holding `start`. -/
def endAfter (s : IntervalSet) (start : U64) : Option U64 :=
  if (s.contains start).isNone then none
  else (findInc s.m start).head?.map fun p => p.1 + p.2

/-- `insert(start, len, &pstart, &plen)`: add `[start, start + len)`, merging it with
the intervals it touches; also the interval it ends up in. -/
def insert (s : IntervalSet) (start len : U64) : Option (IntervalSet × U64 × U64) :=
  if len = 0 then none
  else
    let size := toInt64 (s.size + len.val)
    match findAdj s.m start with
    | [] => some (⟨size, set s.m start len⟩, start, len)
    | p :: rest =>
      if p.1 < start then
        if p.1 + p.2 ≠ start then none
        else
          -- append to the end of `p`, and combine with the next one if it touches
          let m := set s.m p.1 (p.2 + len)
          match rest with
          | n :: _ =>
            if start + len = n.1 then
              some (⟨size, OrdMap.erase (set m p.1 (p.2 + len + n.2)) n.1⟩, p.1, p.2 + len + n.2)
            else some (⟨size, m⟩, p.1, p.2 + len)
          | [] => some (⟨size, m⟩, p.1, p.2 + len)
      else if start + len = p.1 then
        some (⟨size, set (OrdMap.erase s.m p.1) start (len + p.2)⟩, start, len + p.2)
      else if start + len < p.1 then some (⟨size, set s.m start len⟩, start, len)
      else none

/-- `erase(start, len, post_process)`: cut `[start, start + len)` out of the interval
holding it; `post_process`, when given, decides whether each remaining piece stays. -/
def erase (s : IntervalSet) (start len : U64) (postProcess : Option (U64 → U64 → Bool)) :
    Option IntervalSet :=
  let size := toInt64 (s.size - len.val)
  if size < 0 then none
  else
    match findInc s.m start with
    | [] => none
    | p :: _ =>
      if start < p.1 then none
      else
        let before := start - p.1
        if p.2 < before + len then none
        else
          let after := p.2 - before - len
          let keep (a b : U64) : Bool := (postProcess.map fun f => f a b).getD true
          let m := if before ≠ 0 ∧ keep p.1 before then set s.m p.1 before else OrdMap.erase s.m p.1
          let m := if after ≠ 0 ∧ keep (start + len) after then set m (start + len) after else m
          some ⟨size, m⟩

/-- `subtract(a)`: erase each interval of `a`. -/
def subtract (s a : IntervalSet) : Option IntervalSet :=
  a.m.foldlM (fun s p => s.erase p.1 p.2 none) s

/-- `insert(a)`: insert each interval of `a`. -/
def insertSet (s a : IntervalSet) : Option IntervalSet :=
  a.m.foldlM (fun s p => (s.insert p.1 p.2).map Prod.fst) s

/-! ### The denoted set and the representation invariant -/

/-- The intervals as pairs of numbers. -/
def nat (m : List (U64 × U64)) : List (ℕ × ℕ) := m.map fun p => (p.1.val, p.2.val)

/-- The numbers the set holds. -/
def den (s : IntervalSet) : Finset ℕ := Intervals.den (nat s.m)

/-- The representation invariant: the intervals are coalesced, none runs past `2 ^ 64`,
and `_size` is their total length, which stays below `2 ^ 63`. -/
structure WF (s : IntervalSet) : Prop where
  coalesced : Coalesced (nat s.m)
  bounded : ∀ p ∈ s.m, p.1.val + p.2.val < 2 ^ 64
  size_eq : s.size = total (nat s.m)
  total_lt : total (nat s.m) < 2 ^ 63

variable {m m' : List (U64 × U64)} {p q : U64 × U64}

@[simp] theorem nat_nil : nat [] = [] := rfl

@[simp] theorem nat_cons : nat (p :: m) = (p.1.val, p.2.val) :: nat m := rfl

@[simp] theorem nat_append : nat (m ++ m') = nat m ++ nat m' := List.map_append

theorem coalesced_nat_cons : Coalesced (nat (p :: m)) ↔
    0 < p.2.val ∧ (∀ q ∈ m, p.1.val + p.2.val < q.1.val) ∧ Coalesced (nat m) := by
  rw [nat_cons, coalesced_cons, nat, List.forall_mem_map]

theorem coalesced_nat_append : Coalesced (nat (m ++ m')) ↔ Coalesced (nat m) ∧
    Coalesced (nat m') ∧ ∀ p ∈ m, ∀ q ∈ m', p.1.val + p.2.val < q.1.val := by
  rw [nat_append, coalesced_append]
  simp only [nat, List.forall_mem_map]

theorem pos_of_mem (h : Coalesced (nat m)) (hp : p ∈ m) : 0 < p.2.val :=
  h.1 _ (List.mem_map_of_mem hp)

theorem mem_den_nat {x : ℕ} : x ∈ Intervals.den (nat m) ↔ ∃ p ∈ m, p.1.val ≤ x ∧ x < p.1.val + p.2.val := by
  simp [mem_den, nat]

/-- The starts increase along the map. -/
theorem sorted_of_coalesced (h : Coalesced (nat m)) : Sorted m := by
  unfold Sorted keys
  have h2 : m.Pairwise fun p q => p.1.val + p.2.val < q.1.val := List.pairwise_map.mp h.2
  refine List.Pairwise.map _ ?_ h2
  intro p q hpq
  rw [Fin.lt_def]
  omega

/-- A map splits into the intervals whose start is below `start` and the rest. -/
theorem split_lt (m : List (U64 × U64)) (start : U64) :
    (m.takeWhile fun e => decide (e.1 < start)) ++ (m.dropWhile fun e => decide (e.1 < start)) = m :=
  List.takeWhile_append_dropWhile

theorem start_le_of_mem_dropWhile (h : Coalesced (nat m)) {start : U64}
    (hq : q ∈ m.dropWhile fun e => decide (e.1 < start)) : start ≤ q.1 := by
  have := @not_of_mem_dropWhile _ _ _ m (sorted_of_coalesced h) (fun k => decide (k < start))
    (fun a b hab hb => decide_eq_true (hab.trans (of_decide_eq_true hb))) q hq
  exact not_lt.mp (of_decide_eq_false this)

/-- The shape both lookups share: the intervals before the last one that starts below
`start` end before it, it starts below `start`, and those after it begin beyond its end. -/
theorem findSplit (h : Coalesced (nat m)) (start : U64) {pre : List (U64 × U64)} {q : U64 × U64}
    (hq : (m.takeWhile fun e => decide (e.1 < start)).getLast? = some q)
    (hpre : m.takeWhile (fun e => decide (e.1 < start)) = pre ++ [q]) :
    m = pre ++ q :: m.dropWhile (fun e => decide (e.1 < start)) ∧
      (∀ e ∈ pre, e.1.val + e.2.val < q.1.val) ∧ q.1 < start ∧
      ∀ e ∈ m.dropWhile (fun e => decide (e.1 < start)), q.1.val + q.2.val < e.1.val := by
  have hm : m = pre ++ q :: m.dropWhile (fun e => decide (e.1 < start)) := by
    conv_lhs => rw [← split_lt m start, hpre]
    simp
  have hc := h
  rw [hm, coalesced_nat_append, coalesced_nat_cons] at hc
  refine ⟨hm, fun e he => hc.2.2 e he q List.mem_cons_self, ?_, hc.2.1.2.1⟩
  have : q ∈ m.takeWhile (fun e => decide (e.1 < start)) := List.mem_of_getLast? hq
  exact of_mem_takeWhile (fun e : U64 × U64 => e.1 < start) this

/-- The intervals from `start` on all end after `start`, so a lookup that drops
intervals ending by `start` keeps them all. -/
theorem dropWhile_from (h : Coalesced (nat m)) (start : U64) (Q : U64 × U64 → Bool)
    (hQ : ∀ e : U64 × U64, start.val < e.1.val + e.2.val → Q e = false) :
    (m.dropWhile fun e => decide (e.1 < start)).dropWhile Q =
      m.dropWhile fun e => decide (e.1 < start) := by
  cases hd : m.dropWhile (fun e => decide (e.1 < start)) with
  | nil => rfl
  | cons e rest =>
    have he : e ∈ m.dropWhile (fun e => decide (e.1 < start)) := hd ▸ List.mem_cons_self
    have hle : start ≤ e.1 := start_le_of_mem_dropWhile h he
    have hpos := pos_of_mem h ((List.dropWhile_sublist _).subset he)
    rw [List.dropWhile_cons, hQ e (by rw [Fin.le_def] at hle; omega)]
    rfl

theorem add_val (hb : ∀ p ∈ m, p.1.val + p.2.val < 2 ^ 64) (hp : p ∈ m) :
    (p.1 + p.2).val = p.1.val + p.2.val := by
  have := hb p hp
  rw [Fin.val_add]
  omega

/-- What `find_inc` and `find_adj` share: stepping back from `lower_bound(start)` to the
interval before when it touches `start` in the sense of `R` finds the first interval
whose end is not below `start` in that sense. -/
theorem lookup_eq (h : Coalesced (nat m)) (start : U64) (R : ℕ → ℕ → Prop) [DecidableRel R] (hlt : ∀ a b, a < b → R a b)
    (hgt : ∀ a b, b < a → ¬ R a b) (C : U64 × U64 → Prop) [DecidablePred C]
    (hC : ∀ q ∈ m, C q ↔ R (q.1.val + q.2.val) start.val) :
    (match (m.takeWhile fun e => decide (e.1 < start)).getLast? with
      | none => m.dropWhile fun e => decide (e.1 < start)
      | some q =>
        if (m.dropWhile fun e => decide (e.1 < start)).head?.all fun e => decide (start < e.1) then
          if C q then m.dropWhile fun e => decide (e.1 < start)
          else q :: m.dropWhile fun e => decide (e.1 < start)
        else m.dropWhile fun e => decide (e.1 < start)) =
      m.dropWhile fun e => decide (R (e.1.val + e.2.val) start.val) := by
  have hpost := dropWhile_from h start (fun e => decide (R (e.1.val + e.2.val) start.val))
    (fun e he => decide_eq_false (hgt _ _ he))
  cases hq : (m.takeWhile fun e => decide (e.1 < start)).getLast? with
  | none =>
    have hm : m.dropWhile (fun e => decide (e.1 < start)) = m := by
      conv_rhs => rw [← split_lt m start, List.getLast?_eq_none_iff.mp hq]
      rfl
    dsimp only
    rw [← hpost, hm]
  | some q =>
    obtain ⟨pre, hpre⟩ := List.getLast?_eq_some_iff.mp hq
    obtain ⟨hm, hbefore, hqs, hafter⟩ := findSplit h start hq hpre
    have hqm : q ∈ m := hm ▸ List.mem_append_right _ List.mem_cons_self
    have hqs' : q.1.val < start.val := hqs
    have hrhs : m.dropWhile (fun e => decide (R (e.1.val + e.2.val) start.val)) =
        (q :: m.dropWhile fun e => decide (e.1 < start)).dropWhile
          fun e => decide (R (e.1.val + e.2.val) start.val) := by
      conv_lhs => rw [hm]
      exact List.dropWhile_append_of_pos fun e he => decide_eq_true (hlt _ _ (by
        have := hbefore e he
        omega))
    dsimp only
    rw [hrhs, List.dropWhile_cons]
    by_cases hend : R (q.1.val + q.2.val) start.val
    · simp only [hend, (hC q hqm).mpr hend, decide_true, if_true, ite_self]
      exact hpost.symm
    · simp only [hend, hC q hqm, decide_false, if_false, Bool.false_eq_true]
      split_ifs with hhead
      · rfl
      · exfalso
        obtain ⟨e, rest, he⟩ : ∃ e rest,
            m.dropWhile (fun e => decide (e.1 < start)) = e :: rest := by
          cases hd : m.dropWhile (fun e => decide (e.1 < start)) with
          | nil => rw [hd] at hhead; exact absurd rfl hhead
          | cons e rest => exact ⟨e, rest, rfl⟩
        have hes : e.1 = start := by
          rw [he] at hhead
          have hle := start_le_of_mem_dropWhile h (he ▸ List.mem_cons_self)
          simp only [List.head?_cons, Option.all_some, decide_eq_true_eq] at hhead
          exact le_antisymm (not_lt.mp hhead) hle
        have := hafter e (he ▸ List.mem_cons_self)
        rw [hes] at this
        exact hend (hlt _ _ this)

/-- On a coalesced map, `find_inc` finds the first interval that ends after `start`. -/
theorem findInc_eq (h : Coalesced (nat m)) (hb : ∀ p ∈ m, p.1.val + p.2.val < 2 ^ 64)
    (start : U64) :
    findInc m start = m.dropWhile fun e => decide (e.1.val + e.2.val ≤ start.val) :=
  lookup_eq h start (· ≤ ·) (fun _ _ => le_of_lt) (fun _ _ => not_le.mpr)
    (fun q => q.1 + q.2 ≤ start) fun q hq => by rw [Fin.le_def, add_val hb hq]

/-- On a coalesced map, `find_adj` finds the first interval that ends at or after `start`. -/
theorem findAdj_eq (h : Coalesced (nat m)) (hb : ∀ p ∈ m, p.1.val + p.2.val < 2 ^ 64)
    (start : U64) :
    findAdj m start = m.dropWhile fun e => decide (e.1.val + e.2.val < start.val) :=
  lookup_eq h start (· < ·) (fun _ _ => id) (fun _ _ => lt_asymm)
    (fun q => q.1 + q.2 < start) fun q hq => by rw [Fin.lt_def, add_val hb hq]

/-! ### Lookups on a coalesced map -/

theorem toInt64_eq {z : ℤ} (h0 : -2 ^ 63 ≤ z) (h1 : z < 2 ^ 63) : toInt64 z = z :=
  Int.bmod_eq_of_le (by omega) (by omega)

theorem eq_of_holds (h : Coalesced (nat m)) (hp : p ∈ m) (hq : q ∈ m) {x : ℕ}
    (hxp : p.1.val ≤ x ∧ x < p.1.val + p.2.val) (hxq : q.1.val ≤ x ∧ x < q.1.val + q.2.val) :
    p = q := by
  have := h.unique (List.mem_map_of_mem hp) (List.mem_map_of_mem hq) hxp hxq
  simp only [Prod.mk.injEq] at this
  exact Prod.ext (Fin.ext this.1) (Fin.ext this.2)

/-- The intervals left once those ending by `t` are dropped all end after `t`. -/
theorem end_gt_of_mem_dropWhile (h : Coalesced (nat m)) {t : ℕ}
    (hp : p ∈ m.dropWhile fun e => decide (e.1.val + e.2.val ≤ t)) :
    t < p.1.val + p.2.val := by
  have : (p.1.val, p.2.val) ∈ (nat m).dropWhile fun e => decide (e.1 + e.2 ≤ t) := by
    rw [nat, List.dropWhile_map]
    exact List.mem_map_of_mem hp
  exact h.2.end_gt_of_mem_dropWhile this

theorem end_ge_of_mem_dropWhile (h : Coalesced (nat m)) {t : ℕ}
    (hp : p ∈ m.dropWhile fun e => decide (e.1.val + e.2.val < t)) :
    t ≤ p.1.val + p.2.val := by
  have : (p.1.val, p.2.val) ∈ (nat m).dropWhile fun e => decide (e.1 + e.2 < t) := by
    rw [nat, List.dropWhile_map]
    exact List.mem_map_of_mem hp
  exact h.2.end_ge_of_mem_dropWhile this

/-- From `t` on, the set is what the intervals ending after `t` hold. -/
theorem mem_den_iff_dropWhile {t x : ℕ} (hx : t ≤ x) :
    x ∈ Intervals.den (nat m) ↔
      x ∈ Intervals.den (nat (m.dropWhile fun e => decide (e.1.val + e.2.val ≤ t))) := by
  have hsplit : (m.takeWhile fun e => decide (e.1.val + e.2.val ≤ t)) ++
      (m.dropWhile fun e => decide (e.1.val + e.2.val ≤ t)) = m := List.takeWhile_append_dropWhile
  conv_lhs => rw [← hsplit]
  rw [nat_append, den_append, Finset.mem_union, or_iff_right]
  rw [mem_den_nat]
  rintro ⟨e, he, -, hxe⟩
  have := of_mem_takeWhile (fun e : U64 × U64 => e.1.val + e.2.val ≤ t) he
  omega

/-- Below the end of the first interval, the set is that interval. -/
theorem mem_den_cons_iff (h : Coalesced (nat (p :: m))) {x : ℕ} (hx : x < p.1.val + p.2.val) :
    x ∈ Intervals.den (nat (p :: m)) ↔ p.1.val ≤ x := by
  rw [nat_cons, den_cons, Finset.mem_union, Finset.mem_Ico]
  constructor
  · rintro (hp | hm)
    · exact hp.1
    · have := lt_of_mem_den_tail (by rwa [← nat_cons]) hm
      omega
  · intro hp
    exact Or.inl ⟨hp, hx⟩

variable {s : IntervalSet}

theorem wf_empty : WF empty :=
  ⟨coalesced_nil, fun _ h => absurd h List.not_mem_nil, rfl, by simp [empty]⟩

@[simp] theorem den_empty : empty.den = ∅ := rfl

/-- A well-formed set holds nothing exactly when its map is empty. -/
theorem WF.den_eq_empty (hs : WF s) : s.den = ∅ ↔ s.m = [] := by
  constructor
  · intro h
    cases hm : s.m with
    | nil => rfl
    | cons p m =>
      have hp : p.1.val ∈ s.den := Iff.mpr mem_den_nat ⟨p, hm ▸ List.mem_cons_self, le_rfl, by
        have := pos_of_mem hs.coalesced (hm ▸ List.mem_cons_self : p ∈ s.m)
        omega⟩
      rw [h] at hp
      cases hp
  · intro h
    show Intervals.den (nat s.m) = ∅
    rw [h, nat_nil, den_nil]

/-- `_size` of a well-formed set is the number of elements it holds. -/
theorem WF.size_eq_card (hs : WF s) : s.size = s.den.card := by
  rw [hs.size_eq, den, card_den hs.coalesced.2]

theorem nat_injective : Function.Injective nat :=
  List.map_injective_iff.mpr fun _ _ h =>
    Prod.ext (Fin.ext (congrArg Prod.fst h)) (Fin.ext (congrArg Prod.snd h))

/-- A well-formed set is determined by the numbers it holds: its map and its `_size`. -/
theorem WF.eq_of_den_eq {t : IntervalSet} (hs : WF s) (ht : WF t) (h : s.den = t.den) :
    s = t := by
  have hm : s.m = t.m := nat_injective (hs.coalesced.eq_of_den_eq ht.coalesced h)
  have hsize : s.size = t.size := by
    rw [hs.size_eq_card, ht.size_eq_card, h]
  cases s
  cases t
  simp only at hm hsize
  rw [hm, hsize]

/-- `contains(i)` finds the interval holding `i`. -/
theorem contains_eq_some (hs : WF s) (i : U64) (p : U64 × U64) :
    s.contains i = some p ↔ p ∈ s.m ∧ p.1.val ≤ i.val ∧ i.val < p.1.val + p.2.val := by
  unfold contains
  rw [findInc_eq hs.coalesced hs.bounded]
  cases hd : s.m.dropWhile fun e => decide (e.1.val + e.2.val ≤ i.val) with
  | nil =>
    refine iff_of_false (by simp) ?_
    rintro ⟨hp, -, hip⟩
    have := (List.dropWhile_eq_nil_iff.mp hd) p hp
    simp only [decide_eq_true_eq] at this
    omega
  | cons q rest =>
    have hq : q ∈ s.m.dropWhile fun e => decide (e.1.val + e.2.val ≤ i.val) :=
      hd ▸ List.mem_cons_self
    have hqm : q ∈ s.m := (List.dropWhile_sublist _).subset hq
    have hqi := end_gt_of_mem_dropWhile hs.coalesced hq
    have hcons : Coalesced (nat (q :: rest)) :=
      hs.coalesced.sublist (hd ▸ (List.dropWhile_sublist _).map _)
    have hmem : ∀ r ∈ s.m, r.1.val ≤ i.val → i.val < r.1.val + r.2.val → q.1.val ≤ i.val := by
      intro r hr h1 h2
      have hin : i.val ∈ Intervals.den (nat s.m) := Iff.mpr mem_den_nat ⟨r, hr, h1, h2⟩
      rw [mem_den_iff_dropWhile le_rfl, hd] at hin
      exact (mem_den_cons_iff hcons hqi).mp hin
    have hend : ¬ q.1 + q.2 ≤ i := by
      rw [Fin.le_def, add_val hs.bounded hqm]
      omega
    simp only [hend, if_false]
    split_ifs with hlt
    · refine iff_of_false (by simp) ?_
      rintro ⟨hp, h1, h2⟩
      have := hmem p hp h1 h2
      rw [Fin.lt_def] at hlt
      omega
    · rw [Fin.lt_def, not_lt] at hlt
      constructor
      · rintro ⟨⟩
        exact ⟨hqm, hlt, hqi⟩
      · rintro ⟨hp, h1, h2⟩
        rw [eq_of_holds hs.coalesced hp hqm ⟨h1, h2⟩ ⟨hlt, hqi⟩]

theorem contains_isSome (hs : WF s) (i : U64) : (s.contains i).isSome ↔ i.val ∈ s.den := by
  rw [Option.isSome_iff_exists, den, mem_den_nat]
  simp only [contains_eq_some hs]

theorem val_add_of_lt {a b : U64} (h : a.val + b.val < 2 ^ 64) : (a + b).val = a.val + b.val := by
  rw [Fin.val_add]
  omega

/-- A range inside the set lies inside one of its intervals. -/
theorem within (h : Coalesced (nat m)) {a b : ℕ} (hab : a < b)
    (hsub : Finset.Ico a b ⊆ Intervals.den (nat m)) :
    ∃ r ∈ m, r.1.val ≤ a ∧ b ≤ r.1.val + r.2.val := by
  obtain ⟨r, hr, h1, h2⟩ := h.within hab hsub
  obtain ⟨r', hr', rfl⟩ := List.mem_map.mp hr
  exact ⟨r', hr', h1, h2⟩

/-- What `find_inc` finds when `i` is in the set: the interval holding it. -/
theorem findInc_of_holds (h : Coalesced (nat m)) (hb : ∀ p ∈ m, p.1.val + p.2.val < 2 ^ 64)
    {i : U64} (hp : p ∈ m) (hip : p.1.val ≤ i.val ∧ i.val < p.1.val + p.2.val) :
    ∃ rest, findInc m i = p :: rest := by
  rw [findInc_eq h hb]
  cases hd : m.dropWhile fun e => decide (e.1.val + e.2.val ≤ i.val) with
  | nil =>
    have := (List.dropWhile_eq_nil_iff.mp hd) p hp
    simp only [decide_eq_true_eq] at this
    omega
  | cons q rest =>
    have hq : q ∈ m.dropWhile fun e => decide (e.1.val + e.2.val ≤ i.val) := hd ▸ List.mem_cons_self
    have hqi := end_gt_of_mem_dropWhile h hq
    have hcons : Coalesced (nat (q :: rest)) := h.sublist (hd ▸ (List.dropWhile_sublist _).map _)
    have hin : i.val ∈ Intervals.den (nat m) := Iff.mpr mem_den_nat ⟨p, hp, hip⟩
    rw [mem_den_iff_dropWhile le_rfl, hd] at hin
    have hqle := (mem_den_cons_iff hcons hqi).mp hin
    rw [eq_of_holds h ((List.dropWhile_sublist _).subset hq) hp ⟨hqle, hqi⟩ hip]
    exact ⟨rest, rfl⟩

/-- What `find_inc` finds when `i` is not in the set: nothing, or an interval past `i`. -/
theorem findInc_of_not_mem (h : Coalesced (nat m)) (hb : ∀ p ∈ m, p.1.val + p.2.val < 2 ^ 64)
    {i : U64} (hi : i.val ∉ Intervals.den (nat m)) :
    findInc m i = [] ∨ ∃ q rest, findInc m i = q :: rest ∧ i.val < q.1.val ∧ q ∈ m := by
  rw [findInc_eq h hb]
  cases hd : m.dropWhile fun e => decide (e.1.val + e.2.val ≤ i.val) with
  | nil => exact Or.inl rfl
  | cons q rest =>
    have hq : q ∈ m.dropWhile fun e => decide (e.1.val + e.2.val ≤ i.val) := hd ▸ List.mem_cons_self
    refine Or.inr ⟨q, rest, rfl, ?_, (List.dropWhile_sublist _).subset hq⟩
    by_contra hle
    exact hi (Iff.mpr mem_den_nat ⟨q, (List.dropWhile_sublist _).subset hq, by omega,
      end_gt_of_mem_dropWhile h hq⟩)

/-- `contains(start, len)` answers whether the whole range is in the set. -/
theorem containsRange_iff (hs : WF s) (start len : U64) (hlen : 0 < len.val)
    (hend : start.val + len.val < 2 ^ 64) :
    s.containsRange start len = true ↔ Finset.Ico start.val (start.val + len.val) ⊆ s.den := by
  have hstart : start.val ∈ Finset.Ico start.val (start.val + len.val) :=
    Finset.mem_Ico.mpr ⟨le_rfl, by omega⟩
  unfold containsRange
  by_cases hin : start.val ∈ s.den
  · obtain ⟨p, hp, hsp⟩ := Iff.mp mem_den_nat hin
    obtain ⟨rest, hf⟩ := findInc_of_holds hs.coalesced hs.bounded hp hsp
    have hpe := add_val hs.bounded hp
    have hse := val_add_of_lt hend
    rw [hf]
    simp only [Fin.lt_def, Fin.le_def, hpe, hse, not_lt.mpr hsp.1, not_le.mpr hsp.2, if_false]
    split_ifs with hshort
    · refine iff_of_false (by simp) ?_
      intro hsub
      obtain ⟨r, hr, h1, h2⟩ := within hs.coalesced (by omega) hsub
      have := eq_of_holds hs.coalesced hr hp ⟨h1, by omega⟩ hsp
      subst this
      omega
    · refine iff_of_true rfl ?_
      intro x hx
      rw [Finset.mem_Ico] at hx
      exact Iff.mpr mem_den_nat ⟨p, hp, by omega, by omega⟩
  · refine iff_of_false ?_ fun hsub => hin (hsub hstart)
    rcases findInc_of_not_mem hs.coalesced hs.bounded hin with hf | ⟨q, rest, hf, hlt, -⟩
    · rw [hf]
      simp
    · rw [hf]
      simp [Fin.lt_def, hlt]

/-- `end_after(start)` is the end of the run of the set that holds `start`. -/
theorem endAfter_spec (hs : WF s) {start : U64} (hin : start.val ∈ s.den) :
    ∃ e, s.endAfter start = some e ∧ start.val < e.val ∧
      Finset.Ico start.val e.val ⊆ s.den ∧ e.val ∉ s.den := by
  obtain ⟨p, hp, hsp⟩ := Iff.mp mem_den_nat hin
  obtain ⟨rest, hf⟩ := findInc_of_holds hs.coalesced hs.bounded hp hsp
  have hpe := add_val hs.bounded hp
  have hc : (s.contains start).isSome := (contains_isSome hs start).mpr hin
  refine ⟨p.1 + p.2, ?_, by omega, ?_, ?_⟩
  · simp only [endAfter, Option.isNone_iff_eq_none, Option.isSome_iff_ne_none.mp hc,
      if_false, hf, List.head?_cons, Option.map_some]
  · intro x hx
    rw [Finset.mem_Ico] at hx
    exact Iff.mpr mem_den_nat ⟨p, hp, by omega, by omega⟩
  · rw [hpe]
    intro hend
    obtain ⟨r, hr, h1, h2⟩ := Iff.mp mem_den_nat hend
    have hne : p ≠ r := by
      rintro rfl
      omega
    have hpr : (p.1.val, p.2.val) ≠ (r.1.val, r.2.val) := fun heq => hne (by
      simp only [Prod.mk.injEq] at heq
      exact Prod.ext (Fin.ext heq.1) (Fin.ext heq.2))
    rcases hs.coalesced.2.before_or_after (List.mem_map_of_mem hp) (List.mem_map_of_mem hr) hpr
      with hlt | hlt
    · simp only at hlt
      omega
    · simp only at hlt
      omega

/-- `range_start()` is the least element of a non-empty set. -/
theorem rangeStart_spec (hs : WF s) (hne : s.m ≠ []) :
    ∃ r, s.rangeStart = some r ∧ r.val ∈ s.den ∧ ∀ x ∈ s.den, r.val ≤ x := by
  obtain ⟨p, rest, hm⟩ := List.exists_cons_of_ne_nil hne
  have hc : Coalesced (nat (p :: rest)) := hm ▸ hs.coalesced
  refine ⟨p.1, by simp [rangeStart, hm], ?_, ?_⟩
  · rw [den, hm]
    exact start_mem_den (Iff.mp coalesced_nat_cons hc).1
  · intro x hx
    rw [den, hm] at hx
    by_contra hlt
    exact not_mem_den_of_lt hc (by simpa using hlt) hx

/-- `range_end()` is one past the greatest element of a non-empty set. -/
theorem rangeEnd_spec (hs : WF s) (hne : s.m ≠ []) :
    ∃ r, s.rangeEnd = some r ∧ r.val - 1 ∈ s.den ∧ ∀ x ∈ s.den, x < r.val := by
  cases hl : s.m.getLast? with
  | none => exact absurd (List.getLast?_eq_none_iff.mp hl) hne
  | some p =>
    obtain ⟨init, hm⟩ := List.getLast?_eq_some_iff.mp hl
    have hc : Coalesced (nat (init ++ [p])) := hm ▸ hs.coalesced
    have hp : p ∈ s.m := hm ▸ List.mem_append_right _ (List.mem_singleton_self _)
    have hpos := pos_of_mem hs.coalesced hp
    have hpe := add_val hs.bounded hp
    refine ⟨p.1 + p.2, by simp [rangeEnd, hl], ?_, ?_⟩
    · exact Iff.mpr mem_den_nat ⟨p, hp, by omega, by omega⟩
    · intro x hx
      obtain ⟨q, hq, -, hxq⟩ := Iff.mp mem_den_nat hx
      rw [hm] at hq
      rcases List.mem_append.mp hq with hq | hq
      · have := (Iff.mp coalesced_nat_append hc).2.2 q hq p (List.mem_singleton_self _)
        omega
      · rw [List.mem_singleton.mp hq] at hxq
        omega

/-! ### `insert` -/

/-- After `insert`, the map is the intervals that end before `start`, one new or widened
interval `X`, and the rest of the intervals it did not absorb. Such a map is well
formed and holds the old set and the new range. -/
theorem wf_insert_shape (hs : WF s) {A D R : List (U64 × U64)} {k v start len : U64}
    (hm : s.m = A ++ D) (hRD : R.Sublist D) (hX : 0 < v.val)
    (hXb : k.val + v.val < 2 ^ 64) (hAX : ∀ e ∈ A, e.1.val + e.2.val < k.val)
    (hXR : ∀ e ∈ R, k.val + v.val < e.1.val)
    (hden : Finset.Ico k.val (k.val + v.val) ∪ Intervals.den (nat R) =
      Finset.Ico start.val (start.val + len.val) ∪ Intervals.den (nat D))
    (hdisj : Disjoint s.den (Finset.Ico start.val (start.val + len.val)))
    (htot : total (nat s.m) + len.val < 2 ^ 63) :
    WF ⟨toInt64 (s.size + len.val), A ++ (k, v) :: R⟩ ∧
      den ⟨toInt64 (s.size + len.val), A ++ (k, v) :: R⟩ =
        s.den ∪ Finset.Ico start.val (start.val + len.val) := by
  have hc := hs.coalesced
  rw [hm, coalesced_nat_append] at hc
  have hcoal : Coalesced (nat (A ++ (k, v) :: R)) := by
    refine Iff.mpr coalesced_nat_append
      ⟨hc.1, Iff.mpr coalesced_nat_cons ⟨hX, hXR, hc.2.1.sublist (hRD.map _)⟩, ?_⟩
    intro e he y hy
    rcases List.mem_cons.mp hy with rfl | hy
    · exact hAX e he
    · exact hc.2.2 e he y (hRD.subset hy)
  have hdenEq : Intervals.den (nat (A ++ (k, v) :: R)) =
      Intervals.den (nat s.m) ∪ Finset.Ico start.val (start.val + len.val) := by
    rw [hm, nat_append, nat_append, den_append, den_append, nat_cons, den_cons, hden,
      Finset.union_comm (Finset.Ico _ _), Finset.union_assoc]
  have htotal : total (nat (A ++ (k, v) :: R)) = total (nat s.m) + len.val := by
    have := total_of_den_union hs.coalesced hcoal hdenEq hdisj
    omega
  refine ⟨⟨hcoal, ?_, ?_, htotal ▸ htot⟩, hdenEq⟩
  · intro p hp
    rcases List.mem_append.mp hp with hp | hp
    · exact hs.bounded p (hm ▸ List.mem_append_left _ hp)
    · rcases List.mem_cons.mp hp with rfl | hp
      · exact hXb
      · exact hs.bounded p (hm ▸ List.mem_append_right _ (hRD.subset hp))
  · show toInt64 (s.size + len.val) = (total (nat (A ++ (k, v) :: R)) : ℤ)
    rw [htotal, hs.size_eq, toInt64_eq (by omega) (by omega)]
    push_cast
    rfl

/-- Merging ranges that meet end to end. -/
theorem Ico_union_assoc {a b c d e f : ℕ} (S : Finset ℕ)
    (h : Finset.Ico a b = Finset.Ico c d ∪ Finset.Ico e f) :
    Finset.Ico a b ∪ S = Finset.Ico c d ∪ (Finset.Ico e f ∪ S) := by
  rw [h, Finset.union_assoc]

/-- The numbers of a set disjoint from a range lie before or after it. -/
theorem out_of_disjoint {S : Finset ℕ} {a b : ℕ} (h : Disjoint S (Finset.Ico a b)) :
    ∀ x ∈ S, x < a ∨ b ≤ x := by
  intro x hx
  have := Finset.disjoint_left.mp h hx
  rw [Finset.mem_Ico] at this
  omega

/-- `find_adj` splits a coalesced map after the intervals that end before `start`. -/
theorem findAdj_split (h : Coalesced (nat m)) (hb : ∀ p ∈ m, p.1.val + p.2.val < 2 ^ 64)
    (start : U64) : ∃ A, m = A ++ findAdj m start ∧ ∀ e ∈ A, e.1.val + e.2.val < start.val := by
  refine ⟨m.takeWhile fun e => decide (e.1.val + e.2.val < start.val), ?_, fun e he =>
    of_mem_takeWhile (fun e : U64 × U64 => e.1.val + e.2.val < start.val) he⟩
  rw [findAdj_eq h hb, List.takeWhile_append_dropWhile]

/-- A range that starts where `p` ends: `p` grown by `len` in place holds both, and the
intervals before `p` stay below it. -/
theorem grow_after (hs : WF s) {start len : U64} (hend : start.val + len.val < 2 ^ 64)
    {A rest : List (U64 × U64)} (hm : s.m = A ++ p :: rest)
    (hpend : p.1.val + p.2.val = start.val) :
    (∀ e ∈ A, e.1.val + e.2.val < p.1.val) ∧ (∀ j ∈ keys A, j < p.1) ∧
      (p.2 + len).val = p.2.val + len.val ∧
      set s.m p.1 (p.2 + len) = A ++ (p.1, p.2 + len) :: rest ∧
      Finset.Ico p.1.val (p.1.val + (p.2 + len).val) =
        Finset.Ico start.val (start.val + len.val) ∪ Finset.Ico p.1.val (p.1.val + p.2.val) := by
  have hc := hs.coalesced
  rw [hm, coalesced_nat_append, coalesced_nat_cons] at hc
  have hA : ∀ e ∈ A, e.1.val + e.2.val < p.1.val := fun e he => hc.2.2 e he p List.mem_cons_self
  have hkA : ∀ j ∈ keys A, j < p.1 := by
    intro j hj
    obtain ⟨e, he, rfl⟩ := List.mem_map.mp hj
    have := hA e he
    rw [Fin.lt_def]
    omega
  have hv : (p.2 + len).val = p.2.val + len.val := val_add_of_lt (by omega)
  refine ⟨hA, hkA, hv, by rw [hm, set_append_of_lt _ hkA, set_cons_self], ?_⟩
  rw [Finset.union_comm, hpend, Finset.Ico_union_Ico_eq_Ico (by omega) (by omega), hv]
  congr 1
  omega

/-- The range leaves a gap before every interval after `p`: `p` grows by `len` in place. -/
theorem insert_after_extend (hs : WF s) {start len : U64} (hlen : 0 < len.val)
    (hend : start.val + len.val < 2 ^ 64)
    (hdisj : Disjoint s.den (Finset.Ico start.val (start.val + len.val)))
    (htot : total (nat s.m) + len.val < 2 ^ 63)
    {A rest : List (U64 × U64)} (hm : s.m = A ++ p :: rest)
    (hpend : p.1.val + p.2.val = start.val) (hgap : ∀ e ∈ rest, start.val + len.val < e.1.val) :
    WF ⟨toInt64 (s.size + len.val), A ++ (p.1, p.2 + len) :: rest⟩ ∧
      den ⟨toInt64 (s.size + len.val), A ++ (p.1, p.2 + len) :: rest⟩ =
        s.den ∪ Finset.Ico start.val (start.val + len.val) := by
  obtain ⟨hA, -, hv, -, hden1⟩ := grow_after hs hend hm hpend
  exact wf_insert_shape hs (R := rest) (k := p.1) (v := p.2 + len) hm (List.sublist_cons_self _ _)
    (by omega) (by rw [hv]; omega) hA (fun e he => by rw [hv]; have := hgap e he; omega)
    (Ico_union_assoc _ hden1) hdisj htot

/-- The range fills the gap between `p` and the next interval `q`: the three become one
interval, and `q`'s entry goes. -/
theorem insert_after_join (hs : WF s) {start len : U64} (hlen : 0 < len.val)
    (hend : start.val + len.val < 2 ^ 64)
    (hdisj : Disjoint s.den (Finset.Ico start.val (start.val + len.val)))
    (htot : total (nat s.m) + len.val < 2 ^ 63)
    {A rest : List (U64 × U64)} (hm : s.m = A ++ p :: q :: rest)
    (hpend : p.1.val + p.2.val = start.val) (hqv : start.val + len.val = q.1.val) :
    OrdMap.erase (set (set s.m p.1 (p.2 + len)) p.1 (p.2 + len + q.2)) q.1 =
        A ++ (p.1, p.2 + len + q.2) :: rest ∧
      (p.2 + len + q.2).val = p.2.val + len.val + q.2.val ∧
      WF ⟨toInt64 (s.size + len.val), A ++ (p.1, p.2 + len + q.2) :: rest⟩ ∧
      den ⟨toInt64 (s.size + len.val), A ++ (p.1, p.2 + len + q.2) :: rest⟩ =
        s.den ∪ Finset.Ico start.val (start.val + len.val) := by
  obtain ⟨hA, hkA, hv, hm1, -⟩ := grow_after hs hend hm hpend
  have hc := hs.coalesced
  rw [hm, coalesced_nat_append, coalesced_nat_cons] at hc
  have hq : q ∈ s.m := hm ▸ List.mem_append_right _ (List.mem_cons_of_mem _ List.mem_cons_self)
  have hpq : p.1.val + p.2.val < q.1.val := hc.2.1.2.1 q List.mem_cons_self
  have hqr : ∀ r ∈ rest, q.1.val + q.2.val < r.1.val :=
    (Iff.mp coalesced_nat_cons hc.2.1.2.2).2.1
  have hqb := hs.bounded q hq
  have hv2 : (p.2 + len + q.2).val = p.2.val + len.val + q.2.val := by
    rw [val_add_of_lt (by omega), hv]
  have hkq : q.1 ∉ keys A := fun hk => by
    have := hkA q.1 hk
    rw [Fin.lt_def] at this
    omega
  have hpq' : q.1 ≠ p.1 := fun h => by
    rw [h] at hpq
    omega
  have hm2 : OrdMap.erase (set (set s.m p.1 (p.2 + len)) p.1 (p.2 + len + q.2)) q.1 =
      A ++ (p.1, p.2 + len + q.2) :: rest := by
    rw [hm1, set_append_of_lt _ hkA, set_cons_self, erase_append_of_not_mem hkq]
    simp [OrdMap.erase, hpq']
  have hden2 : Finset.Ico p.1.val (p.1.val + (p.2 + len + q.2).val) ∪
      Intervals.den (nat rest) = Finset.Ico start.val (start.val + len.val) ∪
        Intervals.den (nat (p :: q :: rest)) := by
    rw [nat_cons, nat_cons, den_cons, den_cons, ← Finset.union_assoc, ← Finset.union_assoc]
    congr 1
    dsimp only
    rw [hv2, Finset.union_comm (Finset.Ico start.val _), hpend,
      Finset.Ico_union_Ico_eq_Ico (by omega) (by omega), hqv,
      Finset.Ico_union_Ico_eq_Ico (by omega) (by omega)]
    congr 1
    omega
  obtain ⟨hwf, hden⟩ := wf_insert_shape hs (D := p :: q :: rest) (k := p.1) (v := p.2 + len + q.2)
    hm ((List.sublist_cons_self _ _).trans (List.sublist_cons_self _ _)) (by omega)
    (by rw [hv2]; omega) hA (fun e he => by rw [hv2]; have := hqr e he; omega) hden2 hdisj htot
  exact ⟨hm2, hv2, hwf, hden⟩

/-- `insert` when the interval `p` before the range ends where the range starts: `p` is
widened, and absorbs the next interval too if the range ends where that one starts. -/
theorem insert_after (hs : WF s) {start len : U64} (hlen : 0 < len.val)
    (hend : start.val + len.val < 2 ^ 64)
    (hdisj : Disjoint s.den (Finset.Ico start.val (start.val + len.val)))
    (htot : total (nat s.m) + len.val < 2 ^ 63)
    {A rest : List (U64 × U64)} (hm : s.m = A ++ p :: rest)
    (hpend : p.1.val + p.2.val = start.val) :
    ∃ s' ps pl,
      (let m := set s.m p.1 (p.2 + len)
       match rest with
       | n :: _ =>
         if start + len = n.1 then
           some (⟨toInt64 (s.size + len.val), OrdMap.erase (set m p.1 (p.2 + len + n.2)) n.1⟩,
             p.1, p.2 + len + n.2)
         else some (⟨toInt64 (s.size + len.val), m⟩, p.1, p.2 + len)
       | [] => some (⟨toInt64 (s.size + len.val), m⟩, p.1, p.2 + len)) = some (s', ps, pl) ∧
      WF s' ∧ s'.den = s.den ∪ Finset.Ico start.val (start.val + len.val) ∧
      (ps, pl) ∈ s'.m ∧ ps.val ≤ start.val ∧ start.val + len.val ≤ ps.val + pl.val := by
  obtain ⟨-, -, hv, hm1, -⟩ := grow_after hs hend hm hpend
  cases rest with
  | nil =>
    obtain ⟨hwf, hden⟩ := insert_after_extend hs hlen hend hdisj htot hm hpend
      (fun e he => absurd he List.not_mem_nil)
    exact ⟨_, _, _, by rw [hm1], hwf, hden, List.mem_append_right _ List.mem_cons_self,
      by omega, by rw [hv]; omega⟩
  | cons n rest' =>
    have hc := hs.coalesced
    rw [hm, coalesced_nat_append, coalesced_nat_cons] at hc
    have hn : n ∈ s.m := hm ▸ List.mem_append_right _ (List.mem_cons_of_mem _ List.mem_cons_self)
    have hpn : p.1.val + p.2.val < n.1.val := hc.2.1.2.1 n List.mem_cons_self
    have hnr : ∀ r ∈ rest', n.1.val + n.2.val < r.1.val :=
      (Iff.mp coalesced_nat_cons hc.2.1.2.2).2.1
    have hnl : start.val + len.val ≤ n.1.val := by
      have := out_of_disjoint hdisj n.1.val (Iff.mpr mem_den_nat ⟨n, hn, le_rfl, by
        have := pos_of_mem hs.coalesced hn
        omega⟩)
      omega
    have hsl : (start + len).val = start.val + len.val := val_add_of_lt hend
    dsimp only
    by_cases hnext : start + len = n.1
    · obtain ⟨hm2, hv2, hwf, hden⟩ := insert_after_join hs hlen hend hdisj htot hm hpend
        (hsl ▸ congrArg Fin.val hnext)
      exact ⟨_, _, _, by rw [if_pos hnext, hm2], hwf, hden,
        List.mem_append_right _ List.mem_cons_self, by omega, by rw [hv2]; omega⟩
    · have hgap : start.val + len.val < n.1.val := by
        rcases Nat.lt_or_eq_of_le hnl with h | h
        · exact h
        · exact absurd (Fin.ext (hsl.trans h)) hnext
      obtain ⟨hwf, hden⟩ := insert_after_extend hs hlen hend hdisj htot hm hpend fun e he => by
        rcases List.mem_cons.mp he with rfl | he
        · exact hgap
        · have := hnr e he
          omega
      exact ⟨_, _, _, by rw [if_neg hnext, hm1], hwf, hden,
        List.mem_append_right _ List.mem_cons_self, by omega, by rw [hv]; omega⟩

/-- `insert` when the range starts at or before the interval `p` found: the range is
joined to the front of `p` if it ends where `p` starts, and stands alone otherwise. -/
theorem insert_before (hs : WF s) {start len : U64} (hlen : 0 < len.val)
    (hend : start.val + len.val < 2 ^ 64)
    (hdisj : Disjoint s.den (Finset.Ico start.val (start.val + len.val)))
    (htot : total (nat s.m) + len.val < 2 ^ 63)
    {A rest : List (U64 × U64)} (hm : s.m = A ++ p :: rest)
    (hA : ∀ e ∈ A, e.1.val + e.2.val < start.val) (hps : ¬ p.1 < start) :
    ∃ s' ps pl,
      (if start + len = p.1 then
        some (⟨toInt64 (s.size + len.val), set (OrdMap.erase s.m p.1) start (len + p.2)⟩,
          start, len + p.2)
      else if start + len < p.1 then
        some (⟨toInt64 (s.size + len.val), set s.m start len⟩, start, len)
      else none) = some (s', ps, pl) ∧
      WF s' ∧ s'.den = s.den ∪ Finset.Ico start.val (start.val + len.val) ∧
      (ps, pl) ∈ s'.m ∧ ps.val ≤ start.val ∧ start.val + len.val ≤ ps.val + pl.val := by
  have hc := hs.coalesced
  rw [hm, coalesced_nat_append, coalesced_nat_cons] at hc
  have hp : p ∈ s.m := hm ▸ List.mem_append_right _ List.mem_cons_self
  have hpb := hs.bounded p hp
  have hpr : ∀ r ∈ rest, p.1.val + p.2.val < r.1.val := hc.2.1.2.1
  rw [Fin.lt_def, not_lt] at hps
  have hpl : start.val + len.val ≤ p.1.val := by
    have := out_of_disjoint hdisj p.1.val (Iff.mpr mem_den_nat ⟨p, hp, le_rfl, by
      have := pos_of_mem hs.coalesced hp
      omega⟩)
    omega
  have hsl : (start + len).val = start.val + len.val := val_add_of_lt hend
  have hkA : ∀ j ∈ keys A, j < start := by
    intro j hj
    obtain ⟨e, he, rfl⟩ := List.mem_map.mp hj
    have := hA e he
    rw [Fin.lt_def]
    omega
  by_cases hfront : start + len = p.1
  · have hpv : start.val + len.val = p.1.val := hsl ▸ congrArg Fin.val hfront
    have hv : (len + p.2).val = len.val + p.2.val := val_add_of_lt (by omega)
    have hkp : p.1 ∉ keys A := fun hk => by
      have := hkA p.1 hk
      rw [Fin.lt_def] at this
      omega
    have hkr : ∀ j ∈ keys rest, start < j := by
      intro j hj
      obtain ⟨e, he, rfl⟩ := List.mem_map.mp hj
      have := hpr e he
      rw [Fin.lt_def]
      omega
    have hm1 : set (OrdMap.erase s.m p.1) start (len + p.2) = A ++ (start, len + p.2) :: rest := by
      rw [hm, erase_append_of_not_mem hkp, erase_cons_self, set_append_of_lt _ hkA,
        set_eq_cons _ hkr]
    have hden1 : Finset.Ico start.val (start.val + (len + p.2).val) =
        Finset.Ico start.val (start.val + len.val) ∪ Finset.Ico p.1.val (p.1.val + p.2.val) := by
      rw [hv, ← Nat.add_assoc, hpv, Finset.Ico_union_Ico_eq_Ico (by omega) (by omega)]
    obtain ⟨hwf, hden⟩ := wf_insert_shape hs (D := p :: rest) (R := rest) (k := start)
      (v := len + p.2) hm (List.sublist_cons_self _ _) (by omega) (by rw [hv]; omega) hA
      (fun e he => by rw [hv]; have := hpr e he; omega) (Ico_union_assoc _ hden1) hdisj htot
    exact ⟨_, _, _, by rw [if_pos hfront, hm1], hwf, hden,
      List.mem_append_right _ List.mem_cons_self, le_rfl, by rw [hv]; omega⟩
  · have hgap : start.val + len.val < p.1.val := by
      rcases Nat.lt_or_eq_of_le hpl with h | h
      · exact h
      · exact absurd (Fin.ext (hsl.trans h)) hfront
    have hm1 : set s.m start len = A ++ (start, len) :: p :: rest := by
      rw [hm, set_append_of_lt _ hkA, set_cons_of_lt _ _ _ (Fin.lt_def.mpr (by omega))]
    obtain ⟨hwf, hden⟩ := wf_insert_shape hs (D := p :: rest) (R := p :: rest) (k := start)
      (v := len) hm (List.Sublist.refl _) hlen hend hA
      (fun e he => by
        rcases List.mem_cons.mp he with rfl | he
        · exact hgap
        · have := hpr e he
          omega) rfl hdisj htot
    exact ⟨_, _, _, by rw [if_neg hfront, if_pos (Fin.lt_def.mpr (hsl ▸ hgap)), hm1], hwf, hden,
      List.mem_append_right _ List.mem_cons_self, le_rfl, le_rfl⟩

/-- `insert` of a nonempty range that is disjoint from the set, does not wrap around and
keeps the total below `2 ^ 63` succeeds, keeps the set well formed, adds exactly the
range, and reports an interval of the result that covers it. -/
theorem insert_spec (hs : WF s) {start len : U64} (hlen : 0 < len.val)
    (hend : start.val + len.val < 2 ^ 64)
    (hdisj : Disjoint s.den (Finset.Ico start.val (start.val + len.val)))
    (htot : total (nat s.m) + len.val < 2 ^ 63) :
    ∃ s' ps pl, s.insert start len = some (s', ps, pl) ∧ WF s' ∧
      s'.den = s.den ∪ Finset.Ico start.val (start.val + len.val) ∧
      (ps, pl) ∈ s'.m ∧ ps.val ≤ start.val ∧ start.val + len.val ≤ ps.val + pl.val := by
  obtain ⟨A, hm, hA⟩ := findAdj_split hs.coalesced hs.bounded start
  have hlen0 : len ≠ 0 := fun h => by
    rw [h] at hlen
    exact absurd hlen (lt_irrefl 0)
  unfold insert
  rw [if_neg hlen0]
  dsimp only
  rcases hD : findAdj s.m start with _ | ⟨p, rest⟩
  · rw [hD, List.append_nil] at hm
    have hkA : ∀ j ∈ keys A, j < start := by
      intro j hj
      obtain ⟨e, he, rfl⟩ := List.mem_map.mp hj
      have := hA e he
      rw [Fin.lt_def]
      omega
    obtain ⟨hwf, hden⟩ := wf_insert_shape hs (D := []) (R := []) (k := start) (v := len)
      (hm.trans (List.append_nil A).symm) (List.Sublist.refl _) hlen hend hA
      (fun e he => absurd he List.not_mem_nil) rfl hdisj htot
    exact ⟨_, _, _, by rw [hm, set_eq_append _ hkA], hwf, hden,
      List.mem_append_right _ List.mem_cons_self, le_rfl, le_rfl⟩
  · rw [hD] at hm
    dsimp only
    by_cases hlt : p.1 < start
    · have hp : p ∈ s.m := hm ▸ List.mem_append_right _ List.mem_cons_self
      have hpe : start.val ≤ p.1.val + p.2.val := by
        have hpD : p ∈ s.m.dropWhile fun e => decide (e.1.val + e.2.val < start.val) := by
          rw [← findAdj_eq hs.coalesced hs.bounded, hD]
          exact List.mem_cons_self
        exact end_ge_of_mem_dropWhile hs.coalesced hpD
      have hpend : p.1.val + p.2.val = start.val := by
        rcases Nat.lt_or_eq_of_le hpe with h | h
        · have := out_of_disjoint hdisj start.val
            (Iff.mpr mem_den_nat ⟨p, hp, le_of_lt (Fin.lt_def.mp hlt), h⟩)
          omega
        · exact h.symm
      rw [if_pos hlt, if_neg (not_not.mpr (Fin.ext (by rw [add_val hs.bounded hp, hpend])))]
      exact insert_after hs hlen hend hdisj htot hm hpend
    · rw [if_neg hlt]
      exact insert_before hs hlen hend hdisj htot hm hA hlt

/-! ### `erase` -/

/-- The interval `[a, a + l)` as a map, left out when it is empty. -/
def piece (a l : U64) : List (U64 × U64) := if l = 0 then [] else [(a, l)]

theorem mem_piece {a l : U64} (hq : q ∈ piece a l) : q = (a, l) ∧ 0 < l.val := by
  unfold piece at hq
  split_ifs at hq with h
  · exact absurd hq List.not_mem_nil
  · exact ⟨List.mem_singleton.mp hq, Nat.pos_of_ne_zero fun h' => h (Fin.ext h')⟩

theorem coalesced_piece (a l : U64) : Coalesced (nat (piece a l)) := by
  unfold piece
  split_ifs with h
  · exact coalesced_nil
  · exact Iff.mpr coalesced_nat_cons ⟨Nat.pos_of_ne_zero fun h' => h (Fin.ext h'),
      fun _ h => absurd h List.not_mem_nil, coalesced_nil⟩

@[simp] theorem den_piece (a l : U64) :
    Intervals.den (nat (piece a l)) = Finset.Ico a.val (a.val + l.val) := by
  unfold piece
  split_ifs with h
  · simp [h]
  · simp

/-- `find_inc` splits a coalesced map after the intervals that end by `start`. -/
theorem findInc_split (h : Coalesced (nat m)) (hb : ∀ p ∈ m, p.1.val + p.2.val < 2 ^ 64)
    (start : U64) : ∃ A, m = A ++ findInc m start ∧ ∀ e ∈ A, e.1.val + e.2.val ≤ start.val := by
  refine ⟨m.takeWhile fun e => decide (e.1.val + e.2.val ≤ start.val), ?_, fun e he =>
    of_mem_takeWhile (fun e : U64 × U64 => e.1.val + e.2.val ≤ start.val) he⟩
  rw [findInc_eq h hb, List.takeWhile_append_dropWhile]

/-- After `erase`, the interval `r` holding the range is replaced by what is left of it
before and after the range. Such a map is well formed and holds the old set less the
range. -/
theorem wf_erase_shape (hs : WF s) {A rest : List (U64 × U64)} {start len bef aft : U64}
    (hm : s.m = A ++ r :: rest) (hlen : 0 < len.val) (hr1 : r.1.val ≤ start.val)
    (hr2 : start.val + len.val ≤ r.1.val + r.2.val) (hbef : bef.val = start.val - r.1.val)
    (haft : aft.val = r.1.val + r.2.val - (start.val + len.val)) :
    WF ⟨toInt64 (s.size - len.val), A ++ (piece r.1 bef ++ piece (start + len) aft) ++ rest⟩ ∧
      den ⟨toInt64 (s.size - len.val), A ++ (piece r.1 bef ++ piece (start + len) aft) ++ rest⟩ =
        s.den \ Finset.Ico start.val (start.val + len.val) := by
  have hc := hs.coalesced
  rw [hm, coalesced_nat_append, coalesced_nat_cons] at hc
  have hr : r ∈ s.m := hm ▸ List.mem_append_right _ List.mem_cons_self
  have hsl : (start + len).val = start.val + len.val := val_add_of_lt (by
    have := hs.bounded r hr
    omega)
  set L := piece r.1 bef ++ piece (start + len) aft with hL
  have hmemL : ∀ q ∈ L, r.1.val ≤ q.1.val ∧ q.1.val + q.2.val ≤ r.1.val + r.2.val := by
    intro q hq
    rcases List.mem_append.mp hq with hq | hq
    · obtain ⟨rfl, _⟩ := mem_piece hq
      dsimp only
      omega
    · obtain ⟨rfl, _⟩ := mem_piece hq
      dsimp only
      omega
  have hcL : Coalesced (nat L) := by
    refine Iff.mpr coalesced_nat_append ⟨coalesced_piece _ _, coalesced_piece _ _, ?_⟩
    intro e he q hq
    obtain ⟨rfl, _⟩ := mem_piece he
    obtain ⟨rfl, _⟩ := mem_piece hq
    dsimp only
    omega
  have hdenL : Intervals.den (nat L) = Finset.Ico r.1.val (r.1.val + r.2.val) \
      Finset.Ico start.val (start.val + len.val) := by
    rw [nat_append, den_append, den_piece, den_piece, hsl, hbef, haft]
    ext x
    simp only [Finset.mem_union, Finset.mem_sdiff, Finset.mem_Ico]
    omega
  have hcoal : Coalesced (nat (A ++ L ++ rest)) := by
    rw [coalesced_nat_append, coalesced_nat_append]
    refine ⟨⟨hc.1, hcL, fun e he q hq => ?_⟩, hc.2.1.2.2, fun q hq e he => ?_⟩
    · have := hc.2.2 e he r List.mem_cons_self
      have := hmemL q hq
      omega
    · have := hc.2.1.2.1 e he
      rcases List.mem_append.mp hq with hq | hq
      · have := hc.2.2 q hq r List.mem_cons_self
        omega
      · have := hmemL q hq
        omega
  have hAI : ∀ x ∈ Intervals.den (nat A), x ∉ Finset.Ico start.val (start.val + len.val) := by
    intro x hx
    obtain ⟨e, he, _, _⟩ := Iff.mp mem_den_nat hx
    have := hc.2.2 e he r List.mem_cons_self
    rw [Finset.mem_Ico]
    omega
  have hRI : ∀ x ∈ Intervals.den (nat rest), x ∉ Finset.Ico start.val (start.val + len.val) := by
    intro x hx
    obtain ⟨e, he, _, _⟩ := Iff.mp mem_den_nat hx
    have := hc.2.1.2.1 e he
    rw [Finset.mem_Ico]
    omega
  have hdenEq : Intervals.den (nat (A ++ L ++ rest)) =
      Intervals.den (nat s.m) \ Finset.Ico start.val (start.val + len.val) := by
    ext x
    have := hAI x
    have := hRI x
    rw [hm]
    simp only [nat_append, nat_cons, den_append, den_cons, hdenL, Finset.mem_union,
      Finset.mem_sdiff]
    grind
  have hsub : Finset.Ico start.val (start.val + len.val) ⊆ Intervals.den (nat s.m) := by
    intro x hx
    rw [Finset.mem_Ico] at hx
    exact Iff.mpr mem_den_nat ⟨r, hr, by omega, by omega⟩
  have htotal := total_of_den_sdiff hs.coalesced hcoal hdenEq hsub
  rw [Nat.add_sub_cancel_left] at htotal
  refine ⟨⟨hcoal, ?_, ?_, ?_⟩, hdenEq⟩
  · intro q hq
    rcases List.mem_append.mp hq with hq | hq
    · rcases List.mem_append.mp hq with hq | hq
      · exact hs.bounded q (hm ▸ List.mem_append_left _ hq)
      · have := hmemL q hq
        have := hs.bounded r hr
        omega
    · exact hs.bounded q (hm ▸ List.mem_append_right _ (List.mem_cons_of_mem _ hq))
  · show toInt64 (s.size - len.val) = (total (nat (A ++ L ++ rest)) : ℤ)
    have := hs.total_lt
    rw [hs.size_eq, toInt64_eq (by omega) (by omega)]
    omega
  · show total (nat (A ++ L ++ rest)) < 2 ^ 63
    have := hs.total_lt
    omega

/-- What `erase` computes when the range lies in the interval `r`: the two pieces of `r`
around it take its place. -/
theorem erase_eq (hs : WF s) {A rest : List (U64 × U64)} {start len : U64}
    (hm : s.m = A ++ r :: rest) (hfind : findInc s.m start = r :: rest) (hlen : 0 < len.val)
    (hr1 : r.1.val ≤ start.val) (hr2 : start.val + len.val ≤ r.1.val + r.2.val) :
    s.erase start len none = some ⟨toInt64 (s.size - len.val),
      A ++ (piece r.1 (start - r.1) ++ piece (start + len) (r.2 - (start - r.1) - len)) ++ rest⟩ := by
  have hc := hs.coalesced
  rw [hm, coalesced_nat_append, coalesced_nat_cons] at hc
  have hr : r ∈ s.m := hm ▸ List.mem_append_right _ List.mem_cons_self
  have hrb := hs.bounded r hr
  have hsl : (start + len).val = start.val + len.val := val_add_of_lt (by omega)
  have hbef : (start - r.1).val = start.val - r.1.val := Fin.coe_sub_iff_le.mpr hr1
  have hbl : (start - r.1 + len).val = start.val - r.1.val + len.val := by
    rw [val_add_of_lt (by omega), hbef]
  have hle : len.val ≤ total (nat s.m) := by
    have hsub : Finset.Ico start.val (start.val + len.val) ⊆ Intervals.den (nat s.m) := by
      intro x hx
      rw [Finset.mem_Ico] at hx
      exact Iff.mpr mem_den_nat ⟨r, hr, by omega, by omega⟩
    have := Finset.card_le_card hsub
    rwa [Nat.card_Ico, card_den hs.coalesced.2, Nat.add_sub_cancel_left] at this
  have hsize : toInt64 (s.size - len.val) = s.size - len.val := by
    have := hs.total_lt
    rw [hs.size_eq]
    exact toInt64_eq (by omega) (by omega)
  have hkA : ∀ j ∈ keys A, j.val < r.1.val := by
    intro j hj
    obtain ⟨e, he, rfl⟩ := List.mem_map.mp hj
    have := hc.2.2 e he r List.mem_cons_self
    omega
  have hkr : ∀ j ∈ keys rest, start + len < j := by
    intro j hj
    obtain ⟨e, he, rfl⟩ := List.mem_map.mp hj
    have := hc.2.1.2.1 e he
    rw [Fin.lt_def]
    omega
  have hkA' : ∀ j ∈ keys A, j < start + len := fun j hj => by
    have := hkA j hj
    rw [Fin.lt_def]
    omega
  unfold erase
  dsimp only
  rw [if_neg (by rw [hsize, hs.size_eq]; omega), hfind]
  dsimp only
  rw [if_neg (by rw [Fin.lt_def]; omega), if_neg (by rw [Fin.lt_def, hbl]; omega)]
  simp only [Option.map_none, Option.getD_none, and_true]
  generalize start - r.1 = bef
  generalize r.2 - bef - len = aft
  have hm1 : (if bef ≠ 0 then set s.m r.1 bef else OrdMap.erase s.m r.1) =
      A ++ piece r.1 bef ++ rest := by
    rw [hm]
    by_cases hb0 : bef = 0
    · have hkr1 : r.1 ∉ keys A := fun hk => by
        have := hkA r.1 hk
        omega
      rw [if_neg (not_not.mpr hb0), erase_append_of_not_mem hkr1, erase_cons_self]
      simp [piece, hb0]
    · rw [if_pos hb0, set_append_of_lt _ (fun j hj => Fin.lt_def.mpr (hkA j hj)), set_cons_self]
      simp [piece, hb0]
  rw [hm1]
  by_cases ha0 : aft = 0
  · rw [if_neg (not_not.mpr ha0)]
    simp [piece, ha0]
  · have hk : ∀ j ∈ keys (A ++ piece r.1 bef), j < start + len := by
      intro j hj
      rw [keys_append] at hj
      rcases List.mem_append.mp hj with hj | hj
      · exact hkA' j hj
      · obtain ⟨q, hq, rfl⟩ := List.mem_map.mp hj
        obtain ⟨rfl, _⟩ := mem_piece hq
        rw [Fin.lt_def]
        dsimp only
        omega
    rw [if_pos ha0, set_append_of_lt _ hk, set_eq_cons _ hkr]
    simp [piece, ha0]

/-- `erase` from a value the set does not hold fails its assertion. -/
theorem erase_eq_none_of_not_mem (hs : WF s) {start len : U64} (hnot : start.val ∉ s.den)
    (postProcess : Option (U64 → U64 → Bool)) : s.erase start len postProcess = none := by
  unfold erase
  dsimp only
  split_ifs with hsize
  · rfl
  · rcases findInc_of_not_mem hs.coalesced hs.bounded hnot with hf | ⟨q, rest, hf, hlt, -⟩
    · rw [hf]
    · rw [hf]
      dsimp only
      rw [if_pos (Fin.lt_def.mpr hlt)]

theorem mem_of_erase_eq_some (hs : WF s) {start len : U64} {postProcess : Option (U64 → U64 → Bool)}
    {s' : IntervalSet} (h : s.erase start len postProcess = some s') : start.val ∈ s.den := by
  by_contra hnot
  rw [erase_eq_none_of_not_mem hs hnot] at h
  cases h

/-- `erase` of a nonempty range that lies in the set succeeds, keeps the set well formed,
and removes exactly the range. -/
theorem erase_spec (hs : WF s) {start len : U64} (hlen : 0 < len.val)
    (hsub : Finset.Ico start.val (start.val + len.val) ⊆ s.den) :
    ∃ s', s.erase start len none = some s' ∧ WF s' ∧
      s'.den = s.den \ Finset.Ico start.val (start.val + len.val) := by
  obtain ⟨r, hr, hr1, hr2⟩ := within hs.coalesced (by omega) hsub
  have hrb := hs.bounded r hr
  obtain ⟨rest, hfind⟩ := findInc_of_holds hs.coalesced hs.bounded hr ⟨hr1, by omega⟩
  obtain ⟨A, hm, -⟩ := findInc_split hs.coalesced hs.bounded start
  rw [hfind] at hm
  have hbef : (start - r.1).val = start.val - r.1.val := Fin.coe_sub_iff_le.mpr hr1
  have hrest : (r.2 - (start - r.1)).val = r.2.val - (start.val - r.1.val) := by
    rw [Fin.coe_sub_iff_le.mpr (by rw [Fin.le_def, hbef]; omega), hbef]
  have haft : (r.2 - (start - r.1) - len).val = r.1.val + r.2.val - (start.val + len.val) := by
    rw [Fin.coe_sub_iff_le.mpr (by rw [Fin.le_def, hrest]; omega), hrest]
    omega
  obtain ⟨hwf, hden⟩ := wf_erase_shape hs hm hlen hr1 hr2 hbef haft
  exact ⟨_, erase_eq hs hm hfind hlen hr1 hr2, hwf, hden⟩

/-! ### `subtract` and `insert` of a whole set -/

variable {a : IntervalSet}

/-- `subtract(a)` of a set `a` inside `s` succeeds, keeps `s` well formed and removes `a`. -/
theorem subtract_spec (hs : WF s) (ha : WF a) (hsub : a.den ⊆ s.den) :
    ∃ s', s.subtract a = some s' ∧ WF s' ∧ s'.den = s.den \ a.den := by
  have hstep : ∀ t e l, (WF t ∧ Coalesced (nat (e :: l)) ∧ Intervals.den (nat (e :: l)) ⊆ t.den ∧
      t.den \ Intervals.den (nat (e :: l)) = s.den \ a.den) →
      ∃ t', t.erase e.1 e.2 none = some t' ∧ (WF t' ∧ Coalesced (nat l) ∧
        Intervals.den (nat l) ⊆ t'.den ∧ t'.den \ Intervals.den (nat l) = s.den \ a.den) := by
    rintro t e l ⟨ht, hc, hl, hden⟩
    rw [coalesced_nat_cons] at hc
    simp only [nat_cons, den_cons] at hl hden
    obtain ⟨t', he, ht', hden'⟩ := erase_spec ht hc.1 (Finset.union_subset_left hl)
    refine ⟨t', he, ht', hc.2.2, ?_, ?_⟩
    · intro x hx
      rw [hden', Finset.mem_sdiff, Finset.mem_Ico]
      refine ⟨hl (Finset.mem_union_right _ hx), ?_⟩
      obtain ⟨q, hq, hq1, _⟩ := Iff.mp mem_den_nat hx
      have := hc.2.1 q hq
      omega
    · rw [hden', sdiff_sdiff_left]
      exact hden
  obtain ⟨s', hrun, ht, -, -, hden⟩ := run_progress (fun t e => t.erase e.1 e.2 none)
    (fun t l => WF t ∧ Coalesced (nat l) ∧ Intervals.den (nat l) ⊆ t.den ∧
      t.den \ Intervals.den (nat l) = s.den \ a.den)
    hstep a.m s ⟨hs, ha.coalesced, hsub, rfl⟩
  rw [run_eq_foldlM] at hrun
  refine ⟨s', hrun, ht, ?_⟩
  rw [← hden, nat_nil, den_nil, Finset.sdiff_empty]

/-- `insert(a)` of a set `a` disjoint from `s`, with the two totals below `2 ^ 63`
together, succeeds, keeps `s` well formed and adds `a`. -/
theorem insertSet_spec (hs : WF s) (ha : WF a) (hdisj : Disjoint s.den a.den)
    (htot : total (nat s.m) + total (nat a.m) < 2 ^ 63) :
    ∃ s', s.insertSet a = some s' ∧ WF s' ∧ s'.den = s.den ∪ a.den := by
  have hstep : ∀ t e l, (WF t ∧ Coalesced (nat (e :: l)) ∧
      (∀ p ∈ e :: l, p.1.val + p.2.val < 2 ^ 64) ∧ Disjoint t.den (Intervals.den (nat (e :: l))) ∧
      total (nat t.m) + total (nat (e :: l)) < 2 ^ 63 ∧
      t.den ∪ Intervals.den (nat (e :: l)) = s.den ∪ a.den) →
      ∃ t', (t.insert e.1 e.2).map Prod.fst = some t' ∧ (WF t' ∧ Coalesced (nat l) ∧
        (∀ p ∈ l, p.1.val + p.2.val < 2 ^ 64) ∧ Disjoint t'.den (Intervals.den (nat l)) ∧
        total (nat t'.m) + total (nat l) < 2 ^ 63 ∧
        t'.den ∪ Intervals.den (nat l) = s.den ∪ a.den) := by
    rintro t e l ⟨ht, hc, hb, hdisj, htot, hden⟩
    rw [coalesced_nat_cons] at hc
    simp only [nat_cons, den_cons, total_cons, Finset.disjoint_union_right] at hdisj htot hden
    obtain ⟨t', ps, pl, hins, ht', hden', -⟩ :=
      insert_spec ht hc.1 (hb e List.mem_cons_self) hdisj.1 (by omega)
    have htotal := total_of_den_union ht.coalesced ht'.coalesced hden' hdisj.1
    rw [Nat.add_sub_cancel_left] at htotal
    refine ⟨t', by rw [hins]; rfl, ht', hc.2.2, fun p hp => hb p (List.mem_cons_of_mem _ hp),
      ?_, by omega, by rw [hden', Finset.union_assoc]; exact hden⟩
    rw [hden', Finset.disjoint_union_left]
    refine ⟨hdisj.2, Finset.disjoint_left.mpr fun x hx hx' => ?_⟩
    obtain ⟨q, hq, hq1, _⟩ := Iff.mp mem_den_nat hx'
    have := hc.2.1 q hq
    rw [Finset.mem_Ico] at hx
    omega
  obtain ⟨s', hrun, ht, -, -, -, -, hden⟩ := run_progress (fun t e => (t.insert e.1 e.2).map Prod.fst)
    (fun t l => WF t ∧ Coalesced (nat l) ∧ (∀ p ∈ l, p.1.val + p.2.val < 2 ^ 64) ∧
      Disjoint t.den (Intervals.den (nat l)) ∧ total (nat t.m) + total (nat l) < 2 ^ 63 ∧
      t.den ∪ Intervals.den (nat l) = s.den ∪ a.den)
    hstep a.m s ⟨hs, ha.coalesced, ha.bounded, hdisj, htot, rfl⟩
  rw [run_eq_foldlM] at hrun
  refine ⟨s', hrun, ht, ?_⟩
  rw [← hden, nat_nil, den_nil, Finset.union_empty]

end IntervalSet

end Lunule
