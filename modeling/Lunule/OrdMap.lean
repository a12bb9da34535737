import Mathlib.Algebra.BigOperators.Group.List.Basic
import Mathlib.Data.Finset.Card
import Mathlib.Data.List.Pairwise
import Mathlib.Data.List.TakeWhile

/-!
Finite maps kept as association lists sorted by key, with the operations of an
ordered map container: lookup, an insert that keeps an entry already stored at
the key, an assignment that replaces it, and erase; the empty list is a cleared
map. Sortedness makes the list order the iteration order. The lemmas say how each operation changes the
set of keys and the value read back at a key.
-/

namespace OrdMap

variable {κ ν : Type}

def keys (m : List (κ × ν)) : List κ := m.map Prod.fst

def find? [DecidableEq κ] : List (κ × ν) → κ → Option ν
  | [], _ => none
  | (k', v') :: m, k => if k = k' then some v' else find? m k

/-- Insertion that keeps the value already stored at the key. -/
def insert [LinearOrder κ] : List (κ × ν) → κ → ν → List (κ × ν)
  | [], k, v => [(k, v)]
  | (k', v') :: m, k, v =>
    if k < k' then (k, v) :: (k', v') :: m
    else if k = k' then (k', v') :: m
    else (k', v') :: insert m k v

/-- Assignment through the subscript operator: the new value replaces the old. -/
def set [LinearOrder κ] : List (κ × ν) → κ → ν → List (κ × ν)
  | [], k, v => [(k, v)]
  | (k', v') :: m, k, v =>
    if k < k' then (k, v) :: (k', v') :: m
    else if k = k' then (k, v) :: m
    else (k', v') :: set m k v

def erase [DecidableEq κ] : List (κ × ν) → κ → List (κ × ν)
  | [], _ => []
  | (k', v') :: m, k => if k = k' then m else (k', v') :: erase m k

/-- The keys are strictly increasing. -/
def Sorted [LT κ] (m : List (κ × ν)) : Prop := (keys m).Pairwise (· < ·)

@[simp] theorem keys_nil : keys ([] : List (κ × ν)) = [] := rfl

@[simp] theorem keys_cons (k : κ) (v : ν) (m : List (κ × ν)) :
    keys ((k, v) :: m) = k :: keys m := rfl

@[simp] theorem keys_append (m m' : List (κ × ν)) : keys (m ++ m') = keys m ++ keys m' :=
  List.map_append

theorem Sorted.sublist [LT κ] {m m' : List (κ × ν)} (hm : Sorted m) (h : m'.Sublist m) :
    Sorted m' :=
  List.Pairwise.sublist (h.map Prod.fst) hm

@[simp] theorem length_keys (m : List (κ × ν)) : (keys m).length = m.length :=
  List.length_map _

theorem find?_eq_none_iff [DecidableEq κ] (m : List (κ × ν)) (k : κ) :
    find? m k = none ↔ k ∉ keys m := by
  induction m with
  | nil => simp [find?]
  | cons e m ih =>
    obtain ⟨k', v'⟩ := e
    by_cases hk : k = k' <;> simp [find?, hk, ih]

theorem find?_isSome_of_mem [DecidableEq κ] {m : List (κ × ν)} {k : κ}
    (h : k ∈ keys m) : (find? m k).isSome := by
  cases hf : find? m k with
  | none => exact absurd h ((find?_eq_none_iff m k).mp hf)
  | some v => rfl

/-- Looking up a list of keys that are all present succeeds. -/
theorem mapM_find?_isSome [DecidableEq κ] (m : List (κ × ν)) (ks : List κ)
    (h : ∀ k ∈ ks, k ∈ keys m) : (ks.mapM (find? m)).isSome := by
  induction ks with
  | nil => rfl
  | cons k ks ih =>
    obtain ⟨v, hv⟩ := Option.isSome_iff_exists.mp (find?_isSome_of_mem (h k (by simp)))
    obtain ⟨vs, hvs⟩ := Option.isSome_iff_exists.mp (ih fun j hj => h j (by simp [hj]))
    simp [List.mapM_cons, hv, hvs]

/-- A key that lookup finds differs from one it misses. -/
theorem ne_of_find?_eq_none [DecidableEq κ] {m : List (κ × ν)} {k j : κ} {v : ν}
    (hk : find? m k = some v) (hj : find? m j = none) : k ≠ j :=
  ne_of_apply_ne (find? m) (by rw [hk, hj]; exact Option.some_ne_none v)

theorem mem_of_find? [DecidableEq κ] {m : List (κ × ν)} {k : κ} {v : ν}
    (h : find? m k = some v) : (k, v) ∈ m := by
  induction m with
  | nil => cases h
  | cons e m ih =>
    obtain ⟨k', v'⟩ := e
    unfold find? at h
    split_ifs at h with hk
    · cases h
      subst hk
      exact List.mem_cons_self
    · exact List.mem_cons_of_mem _ (ih h)

/-- With distinct keys an entry is what lookup returns at its key. -/
theorem find?_of_mem [DecidableEq κ] {m : List (κ × ν)} {k : κ} {v : ν}
    (hnd : (keys m).Nodup) (h : (k, v) ∈ m) : find? m k = some v := by
  induction m with
  | nil => cases h
  | cons e m ih =>
    obtain ⟨k', v'⟩ := e
    have hnd' : k' ∉ keys m ∧ (keys m).Nodup := by simpa using hnd
    rcases List.mem_cons.mp h with heq | hm
    · cases heq
      simp [find?]
    · have hne : k ≠ k' := by
        rintro rfl
        exact hnd'.1 (List.mem_map_of_mem hm : (k, v).1 ∈ keys m)
      simp only [find?, hne, if_false]
      exact ih hnd'.2 hm

/-- A lookup in two maps one after the other takes the first map's entry if it has one. -/
theorem find?_append [DecidableEq κ] (m m' : List (κ × ν)) (k : κ) :
    find? (m ++ m') k = (find? m k).or (find? m' k) := by
  induction m with
  | nil => rfl
  | cons e m ih =>
    obtain ⟨k', v'⟩ := e
    by_cases hk : k = k' <;> simp [find?, hk, ih]

/-- Two sorted maps, the keys of the first below those of the second, make a sorted map. -/
theorem Sorted.append [LT κ] {m m' : List (κ × ν)} (hm : Sorted m) (hm' : Sorted m')
    (hlt : ∀ a ∈ keys m, ∀ b ∈ keys m', a < b) : Sorted (m ++ m') := by
  unfold Sorted
  rw [keys_append, List.pairwise_append]
  exact ⟨hm, hm', hlt⟩

theorem erase_sublist [DecidableEq κ] (m : List (κ × ν)) (k : κ) : (erase m k).Sublist m := by
  induction m with
  | nil => exact List.Sublist.slnil
  | cons e m ih =>
    obtain ⟨k', v'⟩ := e
    unfold erase
    split_ifs
    · exact List.sublist_cons_self _ _
    · exact ih.cons_cons _

theorem mem_of_mem_erase [DecidableEq κ] {m : List (κ × ν)} {k : κ} {p : κ × ν}
    (h : p ∈ erase m k) : p ∈ m :=
  (erase_sublist m k).subset h

/-- What every value of the map satisfies, every value after an erase does. -/
theorem forall_erase [DecidableEq κ] {P : ν → Prop} {m : List (κ × ν)} (h : ∀ p ∈ m, P p.2)
    (k : κ) : ∀ p ∈ erase m k, P p.2 :=
  fun p hp => h p (mem_of_mem_erase hp)

/-- Erasing a key leaves the entries at every other key in place. -/
theorem mem_erase_of_ne [DecidableEq κ] {m : List (κ × ν)} {k : κ} {p : κ × ν} (hp : p ∈ m)
    (hk : p.1 ≠ k) : p ∈ erase m k := by
  induction m with
  | nil => cases hp
  | cons e m ih =>
    obtain ⟨k', v'⟩ := e
    unfold erase
    rcases List.mem_cons.mp hp with rfl | hm
    · rw [if_neg (Ne.symm hk)]
      exact List.mem_cons_self
    · split_ifs
      · exact hm
      · exact List.mem_cons_of_mem _ (ih hm)

theorem keys_erase [DecidableEq κ] (m : List (κ × ν)) (k : κ) :
    keys (erase m k) = (keys m).erase k := by
  induction m with
  | nil => rfl
  | cons e m ih =>
    obtain ⟨k', v'⟩ := e
    by_cases hk : k = k'
    · subst hk
      simp [erase]
    · simp [erase, hk, ih, Ne.symm hk]

/-- What the leading entries kept by `takeWhile` satisfy. -/
theorem of_mem_takeWhile {α : Type} (P : α → Prop) [DecidablePred P] {l : List α} {x : α}
    (h : x ∈ l.takeWhile fun e => decide (P e)) : P x :=
  of_decide_eq_true (@List.mem_takeWhile_imp _ (fun e => decide (P e)) _ _ h)

theorem erase_cons_self [DecidableEq κ] (k : κ) (v : ν) (m : List (κ × ν)) :
    erase ((k, v) :: m) k = m := by
  simp [erase]

/-- Erasing a key that the front part lacks leaves the front part alone. -/
theorem erase_append_of_not_mem [DecidableEq κ] {m m' : List (κ × ν)} {k : κ}
    (hk : k ∉ keys m) : erase (m ++ m') k = m ++ erase m' k := by
  induction m with
  | nil => rfl
  | cons e m ih =>
    obtain ⟨k', v'⟩ := e
    have hne : k ≠ k' := fun h => hk (h ▸ List.mem_cons_self)
    simp only [List.cons_append, erase, hne, if_false]
    rw [ih fun h => hk (List.mem_cons_of_mem _ h)]

theorem mem_keys_of_find? [DecidableEq κ] {m : List (κ × ν)} {k : κ} {v : ν}
    (h : find? m k = some v) : k ∈ keys m :=
  List.mem_map_of_mem (mem_of_find? h)

/-- An erase leaves the lookups of every other key as they were. -/
theorem find?_erase_of_ne [DecidableEq κ] (m : List (κ × ν)) {k j : κ} (hj : j ≠ k) :
    find? (erase m k) j = find? m j := by
  induction m with
  | nil => rfl
  | cons e m ih =>
    obtain ⟨k', v'⟩ := e
    by_cases hk : k = k'
    · subst hk
      simp [erase, find?, hj]
    · simp only [erase, hk, if_false, find?, ih]

/-- With distinct keys, nothing is left at an erased key. -/
theorem find?_erase_self [DecidableEq κ] {m : List (κ × ν)} (hnd : (keys m).Nodup) (k : κ) :
    find? (erase m k) k = none := by
  rw [find?_eq_none_iff, keys_erase]
  exact hnd.not_mem_erase

theorem find?_erase [DecidableEq κ] {m : List (κ × ν)} (hnd : (keys m).Nodup) (k j : κ) :
    find? (erase m k) j = if j = k then none else find? m j := by
  split_ifs with hj
  · subst hj
    exact find?_erase_self hnd j
  · exact find?_erase_of_ne m hj

theorem mem_keys_erase [DecidableEq κ] {m : List (κ × ν)} (hnd : (keys m).Nodup) (k j : κ) :
    j ∈ keys (erase m k) ↔ j ≠ k ∧ j ∈ keys m := by
  rw [keys_erase, hnd.mem_erase_iff]

/-- A sum over the values of a map is the erased entry's term plus the sum over the rest. -/
theorem sum_erase {μ : Type} [AddCommMonoid μ] [DecidableEq κ] (f : ν → μ) {m : List (κ × ν)}
    {k : κ} {v : ν} (h : find? m k = some v) :
    (m.map fun p => f p.2).sum = f v + ((erase m k).map fun p => f p.2).sum := by
  induction m with
  | nil => cases h
  | cons e m ih =>
    obtain ⟨k', v'⟩ := e
    unfold find? at h
    unfold erase
    split_ifs at h ⊢
    · obtain rfl := Option.some.inj h
      simp
    · simp [ih h, add_left_comm]

/-- In a sorted map the first key is below every other key. -/
theorem Sorted.head_lt [LT κ] {m : List (κ × ν)} (hm : Sorted m) {k j : κ}
    (hk : m.head?.map Prod.fst = some k) (hj : j ∈ keys m) (hne : j ≠ k) : k < j := by
  obtain _ | ⟨⟨k', v'⟩, m⟩ := m
  · cases hk
  obtain rfl : k' = k := by simpa using hk
  unfold Sorted at hm
  rw [keys_cons, List.pairwise_cons] at hm
  rw [keys_cons, List.mem_cons] at hj
  exact hm.1 j (hj.resolve_left hne)

section Linear

variable [LinearOrder κ]

theorem mem_keys_insert (m : List (κ × ν)) (k j : κ) (v : ν) :
    j ∈ keys (insert m k v) ↔ j = k ∨ j ∈ keys m := by
  induction m with
  | nil => simp [insert]
  | cons e m ih =>
    obtain ⟨k', v'⟩ := e
    unfold insert
    split_ifs with hlt heq
    · simp
    · subst heq; simp
    · simp only [keys_cons, List.mem_cons, ih]
      exact or_left_comm

theorem mem_keys_set (m : List (κ × ν)) (k j : κ) (v : ν) :
    j ∈ keys (set m k v) ↔ j = k ∨ j ∈ keys m := by
  induction m with
  | nil => simp [set]
  | cons e m ih =>
    obtain ⟨k', v'⟩ := e
    unfold set
    split_ifs with hlt heq
    · simp
    · subst heq; simp
    · simp only [keys_cons, List.mem_cons, ih]
      exact or_left_comm

theorem length_set_le (m : List (κ × ν)) (k : κ) (v : ν) : (set m k v).length ≤ m.length + 1 := by
  induction m with
  | nil => simp [set]
  | cons e m ih =>
    obtain ⟨k', v'⟩ := e
    unfold set
    split_ifs with hlt heq
    · simp
    · simp
    · simpa using ih

/-- A key strictly below every key of `m` stays below after an insert of a larger key. -/
private theorem lt_keys_insert {m : List (κ × ν)} {a k : κ} (v : ν)
    (ha : ∀ j ∈ keys m, a < j) (hk : a < k) : ∀ j ∈ keys (insert m k v), a < j := by
  intro j hj
  rcases (mem_keys_insert m k j v).mp hj with rfl | hj
  · exact hk
  · exact ha j hj

private theorem lt_keys_set {m : List (κ × ν)} {a k : κ} (v : ν)
    (ha : ∀ j ∈ keys m, a < j) (hk : a < k) : ∀ j ∈ keys (set m k v), a < j := by
  intro j hj
  rcases (mem_keys_set m k j v).mp hj with rfl | hj
  · exact hk
  · exact ha j hj

theorem Sorted.insert {m : List (κ × ν)} (hm : Sorted m) (k : κ) (v : ν) :
    Sorted (insert m k v) := by
  induction m with
  | nil => simp [Sorted, OrdMap.insert]
  | cons e m ih =>
    obtain ⟨k', v'⟩ := e
    have hm' : (∀ j ∈ keys m, k' < j) ∧ Sorted m := by
      simpa [Sorted] using hm
    unfold OrdMap.insert
    split_ifs with hlt heq
    · simp only [Sorted, keys_cons, List.pairwise_cons, List.mem_cons]
      refine ⟨?_, hm'.1, hm'.2⟩
      rintro j (rfl | hj)
      · exact hlt
      · exact lt_trans hlt (hm'.1 j hj)
    · exact hm
    · have hgt : k' < k := lt_of_le_of_ne (not_lt.mp hlt) (Ne.symm heq)
      simp only [Sorted, keys_cons, List.pairwise_cons]
      exact ⟨lt_keys_insert v hm'.1 hgt, ih hm'.2⟩

theorem Sorted.set {m : List (κ × ν)} (hm : Sorted m) (k : κ) (v : ν) :
    Sorted (set m k v) := by
  induction m with
  | nil => simp [Sorted, OrdMap.set]
  | cons e m ih =>
    obtain ⟨k', v'⟩ := e
    have hm' : (∀ j ∈ keys m, k' < j) ∧ Sorted m := by
      simpa [Sorted] using hm
    unfold OrdMap.set
    split_ifs with hlt heq
    · simp only [Sorted, keys_cons, List.pairwise_cons, List.mem_cons]
      refine ⟨?_, hm'.1, hm'.2⟩
      rintro j (rfl | hj)
      · exact hlt
      · exact lt_trans hlt (hm'.1 j hj)
    · subst heq
      simpa [Sorted] using hm
    · have hgt : k' < k := lt_of_le_of_ne (not_lt.mp hlt) (Ne.symm heq)
      simp only [Sorted, keys_cons, List.pairwise_cons]
      exact ⟨lt_keys_set v hm'.1 hgt, ih hm'.2⟩

theorem Sorted.nodup {m : List (κ × ν)} (hm : Sorted m) : (keys m).Nodup :=
  hm.imp ne_of_lt

theorem mem_set {m : List (κ × ν)} {k : κ} {v : ν} {p : κ × ν} (h : p ∈ set m k v) :
    p = (k, v) ∨ p ∈ m := by
  induction m with
  | nil => simpa [set] using h
  | cons e m ih =>
    obtain ⟨k', v'⟩ := e
    unfold set at h
    split_ifs at h with hlt heq
    · simpa using h
    · rcases List.mem_cons.mp h with rfl | hm
      · exact Or.inl rfl
      · exact Or.inr (List.mem_cons_of_mem _ hm)
    · rcases List.mem_cons.mp h with rfl | hm
      · exact Or.inr List.mem_cons_self
      · rcases ih hm with rfl | hm'
        · exact Or.inl rfl
        · exact Or.inr (List.mem_cons_of_mem _ hm')

/-- What every value of the map and the new value satisfy, every value after an assignment
does. -/
theorem forall_set {P : ν → Prop} {m : List (κ × ν)} (h : ∀ p ∈ m, P p.2) (k : κ) {v : ν}
    (hv : P v) : ∀ p ∈ set m k v, P p.2 := by
  intro p hp
  rcases mem_set hp with rfl | hp
  · exact hv
  · exact h p hp

theorem mem_set_self (m : List (κ × ν)) (k : κ) (v : ν) : (k, v) ∈ set m k v := by
  induction m with
  | nil => simp [set]
  | cons e m ih =>
    obtain ⟨k', v'⟩ := e
    unfold set
    split_ifs
    · exact List.mem_cons_self
    · exact List.mem_cons_self
    · exact List.mem_cons_of_mem _ ih

/-- An assignment leaves the entries at every other key in place. -/
theorem mem_set_of_ne {m : List (κ × ν)} {k : κ} {v : ν} {p : κ × ν} (hp : p ∈ m)
    (hk : p.1 ≠ k) : p ∈ set m k v := by
  induction m with
  | nil => cases hp
  | cons e m ih =>
    obtain ⟨k', v'⟩ := e
    unfold set
    split_ifs with hlt heq
    · exact List.mem_cons_of_mem _ hp
    · rcases List.mem_cons.mp hp with rfl | hm
      · exact absurd heq.symm hk
      · exact List.mem_cons_of_mem _ hm
    · rcases List.mem_cons.mp hp with rfl | hm
      · exact List.mem_cons_self
      · exact List.mem_cons_of_mem _ (ih hm)

/-- Assigning at a key above every key appends the entry. -/
theorem set_eq_append {m : List (κ × ν)} {k : κ} (v : ν) (h : ∀ j ∈ keys m, j < k) :
    set m k v = m ++ [(k, v)] := by
  induction m with
  | nil => rfl
  | cons e m ih =>
    obtain ⟨k', v'⟩ := e
    have hk' : k' < k := h k' List.mem_cons_self
    have hnlt : ¬ k < k' := not_lt.mpr hk'.le
    simp only [set, hnlt, ne_of_gt hk', if_false, List.cons_append]
    rw [ih fun j hj => h j (List.mem_cons_of_mem _ hj)]

theorem Sorted.erase {m : List (κ × ν)} (hm : Sorted m) (k : κ) : Sorted (erase m k) :=
  hm.sublist (erase_sublist m k)

/-- In a sorted map, every entry at or below `t` is among the leading entries at or below `t`. -/
theorem mem_takeWhile_of_le {m : List (κ × ν)} (hm : Sorted m) {p : κ × ν} (hp : p ∈ m)
    {t : κ} (ht : p.1 ≤ t) : p ∈ m.takeWhile fun q => decide (q.1 ≤ t) := by
  induction m with
  | nil => cases hp
  | cons e m ih =>
    have hm' : (∀ j ∈ keys m, e.1 < j) ∧ Sorted m := by
      obtain ⟨k', v'⟩ := e
      simpa [Sorted] using hm
    rcases List.mem_cons.mp hp with rfl | hp'
    · simp [ht]
    · have he : e.1 ≤ t := (hm'.1 p.1 (List.mem_map_of_mem hp')).le.trans ht
      simp only [List.takeWhile_cons, he, decide_true]
      exact List.mem_cons_of_mem _ (ih hm'.2 hp')

/-- In a sorted map, the entries left after the leading ones whose keys satisfy a
predicate closed downwards fail it. -/
theorem not_of_mem_dropWhile {m : List (κ × ν)} (hm : Sorted m) {P : κ → Bool}
    (hP : ∀ a b, a < b → P b = true → P a = true) {q : κ × ν}
    (hq : q ∈ m.dropWhile fun e => P e.1) : P q.1 = false := by
  induction m with
  | nil => cases hq
  | cons e m ih =>
    have hm' : (∀ j ∈ keys m, e.1 < j) ∧ Sorted m := by
      obtain ⟨k', v'⟩ := e
      simpa [Sorted] using hm
    cases he : P e.1 with
    | true =>
      simp only [List.dropWhile_cons, he] at hq
      exact ih hm'.2 hq
    | false =>
      simp only [List.dropWhile_cons, he] at hq
      rcases List.mem_cons.mp hq with rfl | hq'
      · exact he
      · cases hPq : P q.1 with
        | false => rfl
        | true =>
          have := hP e.1 q.1 (hm'.1 q.1 (List.mem_map_of_mem hq')) hPq
          rw [he] at this
          exact absurd this Bool.false_ne_true

/-- In a sorted map, the entries left after the leading ones at or below `t` are above `t`. -/
theorem lt_of_mem_dropWhile {m : List (κ × ν)} (hm : Sorted m) {p : κ × ν}
    {t : κ} (hp : p ∈ m.dropWhile fun q => decide (q.1 ≤ t)) : t < p.1 := by
  have h := @not_of_mem_dropWhile _ _ _ m hm (fun k => decide (k ≤ t))
    (fun a b hab hb => decide_eq_true ((le_of_lt hab).trans (of_decide_eq_true hb))) p hp
  exact lt_of_not_ge (of_decide_eq_false h)

theorem set_cons_self (k : κ) (v v' : ν) (m : List (κ × ν)) :
    set ((k, v') :: m) k v = (k, v) :: m := by
  simp [set]

theorem set_cons_of_lt {k k' : κ} (v v' : ν) (m : List (κ × ν)) (h : k < k') :
    set ((k', v') :: m) k v = (k, v) :: (k', v') :: m := by
  simp [set, h]

/-- Assigning at a key below every key puts the entry in front. -/
theorem set_eq_cons {m : List (κ × ν)} {k : κ} (v : ν) (h : ∀ j ∈ keys m, k < j) :
    set m k v = (k, v) :: m := by
  cases m with
  | nil => rfl
  | cons e m =>
    obtain ⟨k', v'⟩ := e
    exact set_cons_of_lt v v' m (h k' List.mem_cons_self)

/-- Assigning at a key above every key of the front part leaves the front part alone. -/
theorem set_append_of_lt {m m' : List (κ × ν)} {k : κ} (v : ν) (h : ∀ j ∈ keys m, j < k) :
    set (m ++ m') k v = m ++ set m' k v := by
  induction m with
  | nil => rfl
  | cons e m ih =>
    obtain ⟨k', v'⟩ := e
    have hk' : k' < k := h k' List.mem_cons_self
    simp only [List.cons_append, set, not_lt.mpr hk'.le, ne_of_gt hk', if_false]
    rw [ih fun j hj => h j (List.mem_cons_of_mem _ hj)]

/-- At a key the map lacks, inserting and assigning are the same. -/
theorem insert_eq_set {m : List (κ × ν)} {k : κ} (v : ν) (hk : k ∉ keys m) :
    insert m k v = set m k v := by
  induction m with
  | nil => rfl
  | cons e m ih =>
    obtain ⟨k', v'⟩ := e
    have hne : k ≠ k' := fun h => hk (h ▸ List.mem_cons_self)
    simp only [insert, set, hne, if_false]
    rw [ih fun h => hk (List.mem_cons_of_mem _ h)]

/-- Inserting at a key above every key appends the entry. -/
theorem insert_eq_append {m : List (κ × ν)} {k : κ} (v : ν) (h : ∀ j ∈ keys m, j < k) :
    insert m k v = m ++ [(k, v)] := by
  induction m with
  | nil => rfl
  | cons e m ih =>
    obtain ⟨k', v'⟩ := e
    have hk' : k' < k := h k' List.mem_cons_self
    simp only [insert, not_lt.mpr hk'.le, ne_of_gt hk', if_false, List.cons_append]
    rw [ih fun j hj => h j (List.mem_cons_of_mem _ hj)]

/-- A lookup right after an assignment finds the assigned value. -/
theorem find?_set_self (m : List (κ × ν)) (k : κ) (v : ν) : find? (set m k v) k = some v := by
  induction m with
  | nil => simp [set, find?]
  | cons e m ih =>
    obtain ⟨k', v'⟩ := e
    unfold set
    split_ifs with hlt heq
    · simp [find?]
    · simp [find?]
    · simp [find?, heq, ih]

/-- An assignment leaves the lookups of every other key as they were. -/
theorem find?_set_of_ne (m : List (κ × ν)) {k j : κ} (v : ν) (hj : j ≠ k) :
    find? (set m k v) j = find? m j := by
  induction m with
  | nil => simp [set, find?, hj]
  | cons e m ih =>
    obtain ⟨k', v'⟩ := e
    unfold set
    split_ifs with hlt heq
    · simp [find?, hj]
    · subst heq
      simp [find?, hj]
    · simp [find?, ih]

theorem find?_set (m : List (κ × ν)) (k j : κ) (v : ν) :
    find? (set m k v) j = if j = k then some v else find? m j := by
  split_ifs with hj
  · subst hj
    exact find?_set_self m j v
  · exact find?_set_of_ne m v hj

/-- Assigning to a key the value it already has leaves a sorted map as it was. -/
theorem set_eq_self_of_find? {m : List (κ × ν)} (hm : Sorted m) {k : κ} {v : ν}
    (h : find? m k = some v) : set m k v = m := by
  induction m with
  | nil => cases h
  | cons e m ih =>
    obtain ⟨k', v'⟩ := e
    have hm' : (∀ j ∈ keys m, k' < j) ∧ Sorted m := by
      simpa [Sorted] using hm
    by_cases hk : k = k'
    · subst hk
      simp only [find?, if_true, Option.some.injEq] at h
      subst h
      exact set_cons_self k v' v' m
    · have hlt : k' < k := by
        have hmem := mem_keys_of_find? (show find? m k = some v by simpa [find?, hk] using h)
        exact hm'.1 k hmem
      simp only [find?, hk, if_false] at h
      simp only [set, not_lt.mpr hlt.le, hk, if_false, ih hm'.2 h]

end Linear

/-- A map with distinct keys below `n` and `n` entries has every key below `n`. -/
theorem mem_keys_of_length {m : List (ℕ × ν)} {n : ℕ} (hnd : (keys m).Nodup)
    (hlt : ∀ j ∈ keys m, j < n) (hlen : m.length = n) : ∀ i < n, i ∈ keys m := by
  classical
  have hsub : (keys m).toFinset ⊆ Finset.range n := by
    intro j hj
    exact Finset.mem_range.mpr (hlt j (List.mem_toFinset.mp hj))
  have hcard : (Finset.range n).card ≤ (keys m).toFinset.card := by
    rw [Finset.card_range, List.toFinset_card_of_nodup hnd, length_keys, hlen]
  have heq := Finset.eq_of_subset_of_card_le hsub hcard
  intro i hi
  have hmem : i ∈ (keys m).toFinset := by
    rw [heq]
    exact Finset.mem_range.mpr hi
  exact List.mem_toFinset.mp hmem

end OrdMap
