import Mathlib.Data.List.Perm.Basic
import Mathlib.Data.List.TakeWhile
import Mathlib.Data.Nat.Notation

/-!
Ordered multimaps with stable iterators. A multimap is a list of nodes in key
order, equal keys in the order they were inserted; each node carries an identity,
which is what an iterator names. `insert` places a node after those of equal key,
as an ordered multimap container does; `erase` and `update` go through the
identity and leave every other node where it is; `upperBound` counts the nodes
whose key is at most the given one. The lemmas say which nodes each operation
keeps, so that a property of every node carries over.
-/

namespace Multimap

structure Node (κ ν : Type) where
  id : ℕ
  key : κ
  val : ν
  deriving DecidableEq, Repr

variable {κ ν : Type}

section Order

variable [LE κ] [DecidableRel (α := κ) (· ≤ ·)]

/-- Insertion at the upper end of the range of equal keys. -/
def insert (m : List (Node κ ν)) (n : Node κ ν) : List (Node κ ν) :=
  m.takeWhile (fun x => x.key ≤ n.key) ++ n :: m.dropWhile (fun x => x.key ≤ n.key)

/-- The position of the first node whose key is above `k`. -/
def upperBound (m : List (Node κ ν)) (k : κ) : ℕ :=
  (m.takeWhile fun x => x.key ≤ k).length

theorem mem_insert {m : List (Node κ ν)} {n x : Node κ ν} :
    x ∈ insert m n ↔ x = n ∨ x ∈ m := by
  constructor
  · intro hx
    simp only [insert, List.mem_append, List.mem_cons] at hx
    rcases hx with hx | rfl | hx
    · exact Or.inr ((List.takeWhile_sublist _).subset hx)
    · exact Or.inl rfl
    · exact Or.inr ((List.dropWhile_sublist _).subset hx)
  · rintro (rfl | hx)
    · simp [insert]
    · have hx' : x ∈ m.takeWhile (fun y => y.key ≤ n.key) ++ m.dropWhile (fun y => y.key ≤ n.key) := by
        rw [List.takeWhile_append_dropWhile]
        exact hx
      simp only [insert, List.mem_append, List.mem_cons]
      rcases List.mem_append.mp hx' with h | h
      · exact Or.inl h
      · exact Or.inr (Or.inr h)

theorem perm_insert (m : List (Node κ ν)) (n : Node κ ν) : (insert m n).Perm (n :: m) := by
  rw [insert]
  exact List.perm_middle.trans (by rw [List.takeWhile_append_dropWhile])

end Order

def erase (m : List (Node κ ν)) (i : ℕ) : List (Node κ ν) := m.filter fun x => x.id ≠ i

def find? (m : List (Node κ ν)) (i : ℕ) : Option (Node κ ν) := List.find? (fun x => x.id = i) m

def update (m : List (Node κ ν)) (i : ℕ) (f : ν → ν) : List (Node κ ν) :=
  m.map fun x => if x.id = i then { x with val := f x.val } else x

theorem mem_of_mem_erase {m : List (Node κ ν)} {i : ℕ} {x : Node κ ν} (hx : x ∈ erase m i) :
    x ∈ m :=
  (List.mem_filter.mp hx).1

/-- Erasing the identity of a node that no other node has takes out just that node. -/
theorem perm_erase {m : List (Node κ ν)} (hnd : (m.map (·.id)).Nodup) {x : Node κ ν}
    (hx : x ∈ m) : m.Perm (x :: erase m x.id) := by
  induction m with
  | nil => cases hx
  | cons y m ih =>
    rw [List.map_cons, List.nodup_cons] at hnd
    rcases List.mem_cons.mp hx with rfl | hx
    · have hrest : erase (x :: m) x.id = m := by
        rw [erase, List.filter_cons_of_neg (by simp)]
        refine List.filter_eq_self.2 fun z hz => ?_
        have hzx : z.id ≠ x.id := fun h => hnd.1 (h ▸ List.mem_map_of_mem hz)
        simpa using hzx
      rw [hrest]
    · have hne : y.id ≠ x.id := fun h => hnd.1 (h ▸ List.mem_map_of_mem hx)
      have hcons : erase (y :: m) x.id = y :: erase m x.id := by simp [erase, hne]
      rw [hcons]
      exact ((ih hnd.2 hx).cons y).trans (List.Perm.swap x y _)

theorem mem_of_find? {m : List (Node κ ν)} {i : ℕ} {x : Node κ ν} (hx : find? m i = some x) :
    x ∈ m :=
  List.mem_of_find?_eq_some hx

/-- A node after an update is an old node, or an old node with its value changed. -/
theorem mem_update {m : List (Node κ ν)} {i : ℕ} {f : ν → ν} {x : Node κ ν}
    (hx : x ∈ update m i f) : ∃ y ∈ m, x = y ∨ x = { y with val := f y.val } := by
  obtain ⟨y, hy, rfl⟩ := List.mem_map.mp hx
  refine ⟨y, hy, ?_⟩
  split_ifs
  · exact Or.inr rfl
  · exact Or.inl rfl

end Multimap
