import Mathlib.Algebra.Order.Field.Rat
import Mathlib.Data.List.Sort

/-!
How the balancer picks the dirfrags it exports. `MDBalancer::find_exports(dir, amount, ...)`
walks the subdirs of `dir`: those that are auth, not already exporting, not frozen or
freezing and not under a stray, with a load of at least `minchunk`. A subdir whose load
falls in `(needmin, needmax)` is taken at once; the others go to `bigger_rep`,
`bigger_unrep` or, at most `need`, to the multimap `smaller`. The walk then takes the
largest smaller one if it reaches `midchunk`, descends into `bigger_unrep`, takes the
smaller ones from the largest down, and descends into `bigger_rep`, returning as soon as
`have` passes `need`. `find_exports_wrapper` starts the walk from the dirfrag, from its
parent, or for a root workload from each dirfrag of its inode several times over, and
`simple_determine_rebalance` runs it over the full-auth subtrees for each decision with one
`already_exporting` for all of them.

A dirfrag is named by its path from the base inodes, so two dirfrags are the same exactly
when their paths are.
-/

namespace Lunule.FindExports

/-- The way down to a dirfrag: at each level the position of the directory inode among
those linked in the dirfrag, and the position of the dirfrag among the inode's. -/
abbrev DirPath := List (ℕ × ℕ)

mutual
/-- A directory inode linked in a primary dentry: its number, whether it is a stray, and its
open dirfrags. -/
inductive Inode where
  | mk (ino : ℕ) (stray : Bool) (dirfrags : List Dir)
/-- A `CDir`: its `frag_t` (value and bits), its load as `get_load` reads it, whether it is
auth, frozen, freezing and replicated, and the directory inodes linked in it. -/
inductive Dir where
  | mk (fragValue fragBits : ℕ) (load : ℚ) (auth frozen freezing rep : Bool)
      (items : List Inode)
end

namespace Inode

def ino : Inode → ℕ
  | .mk ino _ _ => ino

def stray : Inode → Bool
  | .mk _ stray _ => stray

def dirfrags : Inode → List Dir
  | .mk _ _ dirfrags => dirfrags

end Inode

namespace Dir

def fragValue : Dir → ℕ
  | .mk fragValue _ _ _ _ _ _ _ => fragValue

def fragBits : Dir → ℕ
  | .mk _ fragBits _ _ _ _ _ _ => fragBits

def load : Dir → ℚ
  | .mk _ _ load _ _ _ _ _ => load

def auth : Dir → Bool
  | .mk _ _ _ auth _ _ _ _ => auth

def frozen : Dir → Bool
  | .mk _ _ _ _ frozen _ _ _ => frozen

def freezing : Dir → Bool
  | .mk _ _ _ _ _ freezing _ _ => freezing

def rep : Dir → Bool
  | .mk _ _ _ _ _ _ rep _ => rep

def items : Dir → List Inode
  | .mk _ _ _ _ _ _ _ items => items

end Dir

/-- The dirfrag at a path below the inodes `items`, with its inode. -/
def reach (items : List Inode) : DirPath → Option (Inode × Dir)
  | [] => none
  | (i, j) :: rest =>
    (items[i]?).bind fun inode => (inode.dirfrags[j]?).bind fun d =>
      match rest with
      | [] => some (inode, d)
      | _ :: _ => reach d.items rest

/-! ### The subdirs of a dirfrag -/

/-- The dirfrags of the `i`-th inode, from the `j`-th on, with their paths. -/
def childrenFrags (p : DirPath) (inode : Inode) (i : ℕ) : List Dir → ℕ → List (DirPath × Inode × Dir)
  | [], _ => []
  | sub :: subs, j => (p ++ [(i, j)], inode, sub) :: childrenFrags p inode i subs (j + 1)

/-- The loop of `find_exports` over the dentries from the `i`-th on and, for each directory
inode, over its dirfrags (`get_dirfrags`). -/
def childrenItems (p : DirPath) : List Inode → ℕ → List (DirPath × Inode × Dir)
  | [], _ => []
  | inode :: ins, i => childrenFrags p inode i inode.dirfrags 0 ++ childrenItems p ins (i + 1)

def children (d : Dir) (p : DirPath) : List (DirPath × Inode × Dir) :=
  childrenItems p d.items 0

/-! ### `find_exports` -/

/-- The options the walk reads: `mds_bal_min_start`, `mds_bal_need_max`, `mds_bal_need_min`,
`mds_bal_midchunk` and `mds_bal_frag`. -/
structure Config where
  minStart : ℚ
  needMax : ℚ
  needMin : ℚ
  midchunk : ℚ
  frag : Bool

/-- `minchunk`, fixed in `find_exports`. -/
def minchunk : ℚ := 1 / 2

/-- What `find_exports` updates through its references: `exports`, `have` and
`already_exporting`. -/
structure Search where
  exports : List DirPath
  haveLoad : ℚ
  alreadyExporting : List DirPath
  deriving DecidableEq, Repr

/-- `exports.push_back(subdir); already_exporting.insert(subdir); have += pop;` -/
def Search.take (s : Search) (q : DirPath) (pop : ℚ) : Search :=
  ⟨s.exports ++ [q], s.haveLoad + pop, s.alreadyExporting.insert q⟩

/-- The `continue`s of the walk before a subdir's load is read: it must be auth, not already
exporting, not frozen or freezing, and its inode not a stray. -/
def candidate (ae : List DirPath) (c : DirPath × Inode × Dir) : Bool :=
  c.2.2.auth && !decide (c.1 ∈ ae) && !c.2.2.frozen && !c.2.2.freezing && !c.2.1.stray

/-- `frag_mod_dest` in hash mode: `std::hash<unsigned>`, which is the identity, of the inode
number plus the fragment number, modulo the number of in-ranks. -/
def fragModDest (clusterSize : ℕ) (inode : Inode) (sub : Dir) : ℕ :=
  ((inode.ino + sub.fragValue / 2 ^ (24 - sub.fragBits)) % 2 ^ 32) % clusterSize

/-- The subdirs the walk puts in `smaller`, in insertion order. Without `mds_bal_frag` only
those whose `frag_mod_dest` is the target go in, and one after every `cluster_size` others
(`skip_pos`). -/
def collectSmaller (cfg : Config) (clusterSize : ℕ) (target : ℤ) (ae : List DirPath)
    (need : ℚ) : List (DirPath × Inode × Dir) → ℕ → List (ℚ × DirPath)
  | [], _ => []
  | c :: cs, skipPos =>
    if candidate ae c ∧ minchunk ≤ c.2.2.load ∧ c.2.2.load ≤ need then
      if cfg.frag = false then
        if (fragModDest clusterSize c.2.1 c.2.2 : ℤ) = target then
          (c.2.2.load, c.1) :: collectSmaller cfg clusterSize target ae need cs 0
        else if clusterSize + 1 ≤ skipPos + 1 then
          (c.2.2.load, c.1) :: collectSmaller cfg clusterSize target ae need cs 0
        else collectSmaller cfg clusterSize target ae need cs (skipPos + 1)
      else (c.2.2.load, c.1) :: collectSmaller cfg clusterSize target ae need cs skipPos
    else collectSmaller cfg clusterSize target ae need cs skipPos

/-- `smaller` is a `multimap<double, CDir*>`, ordered by load with equal loads in insertion
order; the walk reads it from the largest down. -/
def smallerDesc (l : List (ℚ × DirPath)) : List (ℚ × DirPath) :=
  (l.insertionSort fun a b => a.1 ≤ b.1).reverse

/-- "ok fine, use smaller bits": take each in turn and return once `have` passes `need`;
the flag says whether it returned. -/
def takeSmaller (need : ℚ) : List (ℚ × DirPath) → Search → Search × Bool
  | [], s => (s, false)
  | (pop, q) :: rest, s =>
    if need < (s.take q pop).haveLoad then (s.take q pop, true)
    else takeSmaller need rest (s.take q pop)

/-- The first pass over `smaller`: the largest is taken if it reaches `midchunk`, and the
walk returns; otherwise the pass breaks at once. -/
def firstPass (midchunk : ℚ) (s : Search) : List (ℚ × DirPath) → Option Search
  | (pop, q) :: _ => if midchunk ≤ pop then some (s.take q pop) else none
  | [] => none

section Walk

variable (cfg : Config) (clusterSize : ℕ) (amount : ℚ)

mutual
/-- `find_exports(dir, amount, exports, have, already_exporting, target)` on the dirfrag `d`
at path `p`. -/
def findExports (target : ℤ) : Dir → DirPath → Search → Search
  | .mk fv fb load auth frozen freezing rep items, p, s =>
    let d : Dir := .mk fv fb load auth frozen freezing rep items
    let need := amount - s.haveLoad
    if need < amount * cfg.minStart then s
    else
      let needmax := need * cfg.needMax
      let needmin := need * cfg.needMin
      let midchunk := need * cfg.midchunk
      let ae := s.alreadyExporting
      let cs := children d p
      match cs.find? fun c =>
          candidate ae c && decide (minchunk ≤ c.2.2.load) &&
            decide (needmin < c.2.2.load ∧ c.2.2.load < needmax) with
      | some c => s.take c.1 c.2.2.load
      | none =>
        let sm := smallerDesc (collectSmaller cfg clusterSize target ae need cs clusterSize)
        match firstPass midchunk s sm with
        | some s' => s'
        | none =>
          -- `bigger_unrep`, the rest of `smaller`, `bigger_rep`, each returning once `have`
          -- passes `need`
          let r1 := descendItems false ae need items p 0 s
          if r1.2 then r1.1
          else
            let r2 := takeSmaller need sm r1.1
            if r2.2 then r2.1 else (descendItems true ae need items p 0 r2.1).1

/-- The descent into `bigger_unrep` (`rep = false`) or `bigger_rep` over the dentries from
the `i`-th on; the recursive calls leave `target` at its default `0`. -/
def descendItems (rep : Bool) (ae : List DirPath) (need : ℚ) :
    List Inode → DirPath → ℕ → Search → Search × Bool
  | [], _, _, s => (s, false)
  | .mk ino stray dfs :: ins, p, i, s =>
    let r := descendFrags rep ae need (.mk ino stray dfs) dfs p i 0 s
    if r.2 then r else descendItems rep ae need ins p (i + 1) r.1

def descendFrags (rep : Bool) (ae : List DirPath) (need : ℚ) (inode : Inode) :
    List Dir → DirPath → ℕ → ℕ → Search → Search × Bool
  | [], _, _, _, s => (s, false)
  | sub :: subs, p, i, j, s =>
    if candidate ae (p ++ [(i, j)], inode, sub) ∧ minchunk ≤ sub.load ∧ need < sub.load ∧
        sub.rep = rep then
      let s' := findExports 0 sub (p ++ [(i, j)]) s
      if need < s'.haveLoad then (s', true)
      else descendFrags rep ae need inode subs p i (j + 1) s'
    else descendFrags rep ae need inode subs p i (j + 1) s
end

end Walk

/-! ### The callers -/

section Callers

variable (cfg : Config) (clusterSize : ℕ) (cache : List Inode)

/-- `find_exports_wrapper(dir, amount, ...)` on the dirfrag at `p`. `rootWorkload` is what the
workload matcher answers for the dirfrag's path. For a root workload, every dirfrag of the
inode adds the inode's dirfrags to `little_dfls` once more, and the walk starts from each
one gathered so far whose load is above a tenth of `amount`. Otherwise the walk starts from
the dirfrag on mds0 and from its parent dirfrag elsewhere, when it has one. -/
def findExportsWrapper (rootWorkload : DirPath → Bool) (whoami : ℤ) (p : DirPath) (amount : ℚ)
    (target : ℤ) (s : Search) : Search :=
  match reach cache p with
  | none => s
  | some (inode, d) =>
    if inode.stray then s
    else if rootWorkload p then
      let dfls := childrenFrags p.dropLast inode ((p.getLast?.map Prod.fst).getD 0) inode.dirfrags 0
      let visit (s : Search) (c : DirPath × Inode × Dir) : Search :=
        if 1 / 10 * amount < c.2.2.load then findExports cfg clusterSize amount target c.2.2 c.1 s
        else s
      (dfls.foldl (fun (acc : List (DirPath × Inode × Dir) × Search) _ =>
        (acc.1 ++ dfls, (acc.1 ++ dfls).foldl visit acc.2)) ([], s)).2
    else if whoami = 0 then findExports cfg clusterSize amount target d p s
    else
      match reach cache p.dropLast with
      | some (_, pd) => findExports cfg clusterSize amount target pd p.dropLast s
      | none => findExports cfg clusterSize amount target d p s

/-- The loop of `simple_determine_rebalance` over the full-auth subtrees for one decision:
skip the frozen, freezing and stray ones, and stop once `have` reaches four fifths of the
load to send. -/
def candidateLoop (rootWorkload : DirPath → Bool) (whoami : ℤ) (exLoad : ℚ) (target : ℤ) :
    List DirPath → Search → Search
  | [], s => s
  | pot :: pots, s =>
    match reach cache pot with
    | some (inode, d) =>
      if d.freezing || d.frozen || inode.stray then
        candidateLoop rootWorkload whoami exLoad target pots s
      else
        let s' := findExportsWrapper cfg clusterSize cache rootWorkload whoami pot exLoad target s
        if 4 / 5 * exLoad ≤ s'.haveLoad then s'
        else candidateLoop rootWorkload whoami exLoad target pots s'
    | none => candidateLoop rootWorkload whoami exLoad target pots s

/-- `simple_determine_rebalance`: for each decision `(target_import_mds, target_export_percent)`
the search from empty `exports` and `have`, sharing `already_exporting`; the result lists
the `export_dir_nicely(dir, target)` calls in order. `my_mds_load` is an `int`. -/
def simpleDetermineRebalance (rootWorkload : DirPath → Bool) (whoami : ℤ) (myMdsLoad : ℤ)
    (candidates : List DirPath) (decisions : List (ℤ × ℚ)) : List (DirPath × ℤ) :=
  (decisions.foldl (fun (acc : List (DirPath × ℤ) × List DirPath) dec =>
    let s := candidateLoop cfg clusterSize cache rootWorkload whoami (dec.2 * myMdsLoad) dec.1
      candidates ⟨[], 0, acc.2⟩
    (acc.1 ++ s.exports.map (·, dec.1), s.alreadyExporting)) ([], [])).1

/-- The search of `try_rebalance` for one target: the walk from every full-auth subtree
that is not a stray. -/
def tryRebalanceSearch (amount : ℚ) (candidates : List DirPath) (s : Search) : Search :=
  candidates.foldl (fun s pot =>
    match reach cache pot with
    | some (inode, d) => if inode.stray then s else findExports cfg clusterSize amount 0 d pot s
    | none => s) s

end Callers

/-! ### What a search adds -/

/-- A subdir the walk may take: auth, neither frozen nor freezing, and its inode not a stray. -/
def Exportable (inode : Inode) (sub : Dir) : Prop :=
  sub.auth = true ∧ sub.frozen = false ∧ sub.freezing = false ∧ inode.stray = false

/-- From `s` to `s'` the search appended the dirfrags of `new`, each once and none of them
already exporting in `s`, each with the load it recorded and satisfying `Ok`; it added
exactly them to `already_exporting` and their loads to `have`. -/
def Grows (Ok : DirPath → ℚ → Prop) (s s' : Search) : Prop :=
  ∃ new : List (DirPath × ℚ),
    s'.exports = s.exports ++ new.map Prod.fst ∧ (new.map Prod.fst).Nodup ∧
    s'.haveLoad = s.haveLoad + (new.map Prod.snd).sum ∧
    (∀ q, q ∈ s'.alreadyExporting ↔ q ∈ s.alreadyExporting ∨ q ∈ new.map Prod.fst) ∧
    ∀ x ∈ new, x.1 ∉ s.alreadyExporting ∧ Ok x.1 x.2

namespace Grows

variable {Ok Ok' : DirPath → ℚ → Prop} {s₁ s₂ s₃ : Search}

theorem refl (s : Search) : Grows Ok s s :=
  ⟨[], by simp, by simp, by simp, by simp, by simp⟩

theorem take {s : Search} {q : DirPath} {pop : ℚ} (hq : q ∉ s.alreadyExporting)
    (hok : Ok q pop) : Grows Ok s (s.take q pop) := by
  refine ⟨[(q, pop)], rfl, by simp, by simp [Search.take], fun q' => ?_, by simp [hq, hok]⟩
  simp [Search.take, List.mem_insert_iff, or_comm]

theorem mono (h : ∀ q ℓ, Ok q ℓ → Ok' q ℓ) (hg : Grows Ok s₁ s₂) : Grows Ok' s₁ s₂ := by
  obtain ⟨new, he, hn, hh, ha, hx⟩ := hg
  exact ⟨new, he, hn, hh, ha, fun x hx' => ⟨(hx x hx').1, h _ _ (hx x hx').2⟩⟩

/-- Two searches in a row: the second appends nothing the first did, since the first made
it exporting. -/
theorem trans (h₁ : Grows Ok s₁ s₂) (h₂ : Grows Ok s₂ s₃) : Grows Ok s₁ s₃ := by
  obtain ⟨n₁, he₁, hn₁, hh₁, ha₁, hx₁⟩ := h₁
  obtain ⟨n₂, he₂, hn₂, hh₂, ha₂, hx₂⟩ := h₂
  refine ⟨n₁ ++ n₂, by simp [he₁, he₂], ?_, by simp [hh₁, hh₂, add_assoc], ?_, ?_⟩
  · rw [List.map_append, List.nodup_append]
    refine ⟨hn₁, hn₂, fun a ha b hb hab => ?_⟩
    obtain ⟨x, hx, rfl⟩ := List.mem_map.mp hb
    exact (hx₂ x hx).1 ((ha₁ _).mpr (Or.inr (hab ▸ ha)))
  · intro q
    rw [ha₂, ha₁]
    simp [or_assoc]
  · intro x hx
    rcases List.mem_append.mp hx with hx | hx
    · exact hx₁ x hx
    · exact ⟨fun h => (hx₂ x hx).1 ((ha₁ _).mpr (Or.inl h)), (hx₂ x hx).2⟩

/-- A dirfrag exporting after the search was exporting before or was appended by it. -/
theorem mem_ae {q : DirPath} (h : Grows Ok s₁ s₂) (hq : q ∈ s₂.alreadyExporting) :
    q ∈ s₁.alreadyExporting ∨ ∃ ℓ, Ok q ℓ := by
  obtain ⟨new, -, -, -, ha, hx⟩ := h
  rcases (ha q).mp hq with hq | hq
  · exact Or.inl hq
  · obtain ⟨x, hx', rfl⟩ := List.mem_map.mp hq
    exact Or.inr ⟨x.2, (hx x hx').2⟩

end Grows

/-! ### The subdirs, enumerated -/

section Children

variable {p : DirPath}

theorem mem_childrenFrags {inode : Inode} {i : ℕ} :
    ∀ {subs : List Dir} {j : ℕ} {c : DirPath × Inode × Dir}, c ∈ childrenFrags p inode i subs j →
      ∃ k sub, subs[k]? = some sub ∧ c = (p ++ [(i, j + k)], inode, sub)
  | [], _, _, h => by cases h
  | sub :: subs, j, c, h => by
    rcases List.mem_cons.mp h with rfl | h
    · exact ⟨0, sub, rfl, rfl⟩
    · obtain ⟨k, sub', hk, rfl⟩ := mem_childrenFrags h
      exact ⟨k + 1, sub', hk, by simp [Nat.add_assoc, Nat.add_comm 1 k]⟩

theorem mem_childrenItems :
    ∀ {ins : List Inode} {i : ℕ} {c : DirPath × Inode × Dir}, c ∈ childrenItems p ins i →
      ∃ k j, c.1 = p ++ [(i + k, j)] ∧ reach ins [(k, j)] = some (c.2.1, c.2.2)
  | [], _, _, h => by cases h
  | inode :: ins, i, c, h => by
    rcases List.mem_append.mp h with h | h
    · obtain ⟨j, sub, hj, rfl⟩ := mem_childrenFrags h
      exact ⟨0, j, by simp, by simp [reach, hj]⟩
    · obtain ⟨k, j, hc, hr⟩ := mem_childrenItems h
      exact ⟨k + 1, j, by rw [hc]; simp [Nat.add_assoc, Nat.add_comm 1 k], by simpa [reach] using hr⟩

/-- A subdir of `d` is one step below it, and `reach` finds it there. -/
theorem mem_children {d : Dir} {c : DirPath × Inode × Dir} (h : c ∈ children d p) :
    ∃ step, c.1 = p ++ [step] ∧ reach d.items [step] = some (c.2.1, c.2.2) := by
  obtain ⟨k, j, hc, hr⟩ := mem_childrenItems h
  exact ⟨(k, j), by simpa using hc, hr⟩

theorem childrenFrags_paths (inode : Inode) (i : ℕ) :
    ∀ (subs : List Dir) (j : ℕ),
      (childrenFrags p inode i subs j).map Prod.fst = (List.range' j subs.length).map fun j' => p ++ [(i, j')]
  | [], _ => rfl
  | sub :: subs, j => by
    simp [childrenFrags, List.range'_succ, childrenFrags_paths inode i subs (j + 1)]

theorem childrenItems_nodup : ∀ (ins : List Inode) (i : ℕ), ((childrenItems p ins i).map Prod.fst).Nodup
  | [], _ => List.nodup_nil
  | inode :: ins, i => by
    rw [childrenItems, List.map_append, List.nodup_append, childrenFrags_paths]
    refine ⟨(List.nodup_range' ..).map fun a b h => by simpa using h, childrenItems_nodup ins (i + 1), ?_⟩
    intro a ha b hb hab
    obtain ⟨j', -, rfl⟩ := List.mem_map.mp ha
    obtain ⟨c, hc, rfl⟩ := List.mem_map.mp hb
    obtain ⟨k, j, hp, -⟩ := mem_childrenItems hc
    rw [hp] at hab
    simp at hab
    omega

theorem children_nodup (d : Dir) : ((children d p).map Prod.fst).Nodup :=
  childrenItems_nodup d.items 0

end Children

/-! ### `smaller` -/

section Smaller

variable {cfg : Config} {clusterSize : ℕ} {target : ℤ} {ae : List DirPath} {need : ℚ}

/-- `smaller` holds, in the walk's order, some of the subdirs that pass its checks, with
their loads. -/
theorem collectSmaller_sublist :
    ∀ (cs : List (DirPath × Inode × Dir)) (skipPos : ℕ),
      (collectSmaller cfg clusterSize target ae need cs skipPos).Sublist
        ((cs.filter (candidate ae)).map fun c => (c.2.2.load, c.1))
  | [], _ => List.Sublist.slnil
  | c :: cs, skipPos => by
    have ih := fun k => collectSmaller_sublist cs k
    unfold collectSmaller
    by_cases hcand : candidate ae c = true
    · rw [List.filter_cons_of_pos hcand, List.map_cons]
      split_ifs
      · exact (ih _).cons_cons _
      · exact (ih _).cons_cons _
      · exact (ih _).cons _
      · exact (ih _).cons_cons _
      · exact (ih _).cons _
    · rw [List.filter_cons_of_neg hcand, if_neg fun hc => hcand hc.1]
      exact ih _

theorem mem_collectSmaller {cs : List (DirPath × Inode × Dir)} {skipPos : ℕ} {x : ℚ × DirPath}
    (h : x ∈ collectSmaller cfg clusterSize target ae need cs skipPos) :
    ∃ c ∈ cs, candidate ae c = true ∧ x = (c.2.2.load, c.1) := by
  obtain ⟨c, hc, rfl⟩ := List.mem_map.mp ((collectSmaller_sublist cs skipPos).subset h)
  obtain ⟨hc, hcand⟩ := List.mem_filter.mp hc
  exact ⟨c, hc, hcand, rfl⟩

theorem collectSmaller_nodup {cs : List (DirPath × Inode × Dir)} (hcs : (cs.map Prod.fst).Nodup)
    (skipPos : ℕ) : ((collectSmaller cfg clusterSize target ae need cs skipPos).map Prod.snd).Nodup := by
  refine (((collectSmaller_sublist cs skipPos).map Prod.snd).trans ?_).nodup hcs
  rw [List.map_map]
  exact List.filter_sublist.map _

theorem smallerDesc_perm (l : List (ℚ × DirPath)) : (smallerDesc l).Perm l :=
  (List.reverse_perm _).trans (List.perm_insertionSort _ l)

/-- Taking the smaller ones in turn: each is appended once, provided they are distinct and
none is exporting yet. -/
theorem takeSmaller_grows {Ok : DirPath → ℚ → Prop} :
    ∀ (L : List (ℚ × DirPath)) (s : Search), (L.map Prod.snd).Nodup →
      (∀ x ∈ L, x.2 ∉ s.alreadyExporting ∧ Ok x.2 x.1) → Grows Ok s (takeSmaller need L s).1
  | [], s, _, _ => Grows.refl s
  | (pop, q) :: rest, s, hnd, hL => by
    have hq := hL (pop, q) List.mem_cons_self
    have htake : Grows Ok s (s.take q pop) := Grows.take hq.1 hq.2
    rw [List.map_cons, List.nodup_cons] at hnd
    unfold takeSmaller
    split_ifs
    · exact htake
    · refine htake.trans (takeSmaller_grows rest _ hnd.2 fun x hx => ⟨?_, (hL x (List.mem_cons_of_mem _ hx)).2⟩)
      simp only [Search.take, List.mem_insert_iff, not_or]
      exact ⟨fun h => hnd.1 (List.mem_map.mpr ⟨x, hx, h⟩), (hL x (List.mem_cons_of_mem _ hx)).1⟩

end Smaller

/-! ### The walk appends exportable dirfrags below its start -/

/-- A dirfrag strictly below `d` (at path `p`) that the walk may take, with its load. -/
def Under (d : Dir) (p : DirPath) (q : DirPath) (ℓ : ℚ) : Prop :=
  ∃ r, q = p ++ r ∧ ∃ inode sub, reach d.items r = some (inode, sub) ∧ Exportable inode sub ∧
    ℓ = sub.load

/-- A dirfrag at least two levels below the dentries `ins` of the dirfrag at `p`, counted
from the `i`-th: below one of their dirfrags. -/
def Below (ins : List Inode) (p : DirPath) (i : ℕ) (q : DirPath) (ℓ : ℚ) : Prop :=
  ∃ k j r, q = p ++ (i + k, j) :: r ∧ r ≠ [] ∧ ∃ inode sub, reach ins ((k, j) :: r) = some (inode, sub) ∧
    Exportable inode sub ∧ ℓ = sub.load

/-- A dirfrag below one of the dirfrags `dfs` of the `i`-th inode, counted from the `j`-th. -/
def BelowFrags (dfs : List Dir) (p : DirPath) (i j : ℕ) (q : DirPath) (ℓ : ℚ) : Prop :=
  ∃ k r sub', q = p ++ (i, j + k) :: r ∧ dfs[k]? = some sub' ∧
    ∃ inode sub, reach sub'.items r = some (inode, sub) ∧ Exportable inode sub ∧ ℓ = sub.load

theorem candidate_spec {ae : List DirPath} {c : DirPath × Inode × Dir}
    (h : candidate ae c = true) : c.1 ∉ ae ∧ Exportable c.2.1 c.2.2 := by
  simp only [candidate, Bool.and_eq_true, Bool.not_eq_true', decide_eq_false_iff_not] at h
  exact ⟨h.1.1.1.2, h.1.1.1.1, h.1.1.2, h.1.2, h.2⟩

/-- A subdir that passed the walk's checks may be taken. -/
theorem under_of_child {d : Dir} {p : DirPath} {ae : List DirPath} {c : DirPath × Inode × Dir}
    (hc : c ∈ children d p) (hcand : candidate ae c = true) :
    c.1 ∉ ae ∧ Under d p c.1 c.2.2.load := by
  obtain ⟨step, hp, hr⟩ := mem_children hc
  exact ⟨(candidate_spec hcand).1, [step], hp, c.2.1, c.2.2, hr, (candidate_spec hcand).2, rfl⟩

theorem reach_cons_of_ne_nil {items : List Inode} {i j : ℕ} {r : DirPath} (hr : r ≠ []) :
    reach items ((i, j) :: r) =
      (items[i]?).bind fun inode => (inode.dirfrags[j]?).bind fun d => reach d.items r := by
  cases r with
  | nil => exact absurd rfl hr
  | cons _ _ => rfl

theorem Below.depth {ins : List Inode} {p q : DirPath} {i : ℕ} {ℓ : ℚ} (h : Below ins p i q ℓ) :
    p.length + 2 ≤ q.length := by
  obtain ⟨k, j, r, rfl, hr, -⟩ := h
  have : 1 ≤ r.length := List.length_pos_iff.mpr hr
  simp
  omega

theorem Below.under {d : Dir} {p q : DirPath} {ℓ : ℚ} (h : Below d.items p 0 q ℓ) : Under d p q ℓ := by
  obtain ⟨k, j, r, rfl, -, inode, sub, hr, hex, hl⟩ := h
  exact ⟨(k, j) :: r, by simp, inode, sub, hr, hex, hl⟩

/-- The dirfrags below the first inode's are below the dentries. -/
theorem BelowFrags.below {inode : Inode} {ins : List Inode} {p q : DirPath} {i : ℕ} {ℓ : ℚ}
    (h : BelowFrags inode.dirfrags p i 0 q ℓ) : Below (inode :: ins) p i q ℓ := by
  obtain ⟨k, r, sub', rfl, hk, inode', sub, hreach, hex, hl⟩ := h
  have hne : r ≠ [] := by
    rintro rfl
    simp [reach] at hreach
  refine ⟨0, k, r, by simp, hne, inode', sub, ?_, hex, hl⟩
  rw [reach_cons_of_ne_nil hne]
  simp [hk, hreach]

theorem Below.cons {inode : Inode} {ins : List Inode} {p q : DirPath} {i : ℕ} {ℓ : ℚ}
    (h : Below ins p (i + 1) q ℓ) : Below (inode :: ins) p i q ℓ := by
  obtain ⟨k, j, r, rfl, hr, inode', sub, hreach, hex, hl⟩ := h
  refine ⟨k + 1, j, r, by simp [Nat.add_assoc, Nat.add_comm 1 k], hr, inode', sub, ?_, hex, hl⟩
  rw [reach_cons_of_ne_nil hr] at hreach ⊢
  simpa using hreach

theorem BelowFrags.cons {sub : Dir} {dfs : List Dir} {p q : DirPath} {i j : ℕ} {ℓ : ℚ}
    (h : BelowFrags dfs p i (j + 1) q ℓ) : BelowFrags (sub :: dfs) p i j q ℓ := by
  obtain ⟨k, r, sub', rfl, hk, hu⟩ := h
  exact ⟨k + 1, r, sub', by simp [Nat.add_assoc, Nat.add_comm 1 k], hk, hu⟩

/-- What the walk from a dirfrag takes is below that dirfrag. -/
theorem Under.belowFrags {sub : Dir} {subs : List Dir} {p q : DirPath} {i j : ℕ} {ℓ : ℚ}
    (h : Under sub (p ++ [(i, j)]) q ℓ) : BelowFrags (sub :: subs) p i j q ℓ := by
  obtain ⟨r, rfl, hu⟩ := h
  exact ⟨0, r, sub, by simp, rfl, hu⟩

section Walk

variable {cfg : Config} {clusterSize : ℕ} {amount : ℚ}

/-- The entries of `smaller` as the walk reads them: distinct subdirs one level down that
passed its checks. -/
theorem smaller_spec (cfg : Config) (clusterSize : ℕ) (target : ℤ) (ae : List DirPath) (need : ℚ)
    (d : Dir) (p : DirPath) :
    let sm := smallerDesc (collectSmaller cfg clusterSize target ae need (children d p) clusterSize)
    (sm.map Prod.snd).Nodup ∧
      ∀ x ∈ sm, x.2 ∉ ae ∧ Under d p x.2 x.1 ∧ x.2.length = p.length + 1 := by
  refine ⟨((smallerDesc_perm _).map _).nodup_iff.mpr (collectSmaller_nodup (children_nodup d) _),
    fun x hx => ?_⟩
  obtain ⟨c, hc, hcand, rfl⟩ := mem_collectSmaller ((smallerDesc_perm _).subset hx)
  obtain ⟨hnot, hu⟩ := under_of_child hc hcand
  obtain ⟨step, hp, -⟩ := mem_children hc
  exact ⟨hnot, hu, by simp [hp]⟩

theorem firstPass_grows {Ok : DirPath → ℚ → Prop} {mid : ℚ} {s s' : Search} :
    ∀ {sm : List (ℚ × DirPath)}, (∀ x ∈ sm, x.2 ∉ s.alreadyExporting ∧ Ok x.2 x.1) →
      firstPass mid s sm = some s' → Grows Ok s s'
  | (pop, q) :: _, hsm, h => by
    simp only [firstPass, Option.ite_none_right_eq_some, Option.some.injEq] at h
    rw [← h.2]
    exact Grows.take (hsm _ List.mem_cons_self).1 (hsm _ List.mem_cons_self).2

mutual
/-- `find_exports` appends distinct dirfrags below its start that were not exporting, each
auth, neither frozen nor freezing and not under a stray; they become exporting and `have`
grows by their loads. -/
theorem findExports_grows (target : ℤ) : ∀ (d : Dir) (p : DirPath) (s : Search),
    Grows (Under d p) s (findExports cfg clusterSize amount target d p s)
  | .mk fv fb load auth frozen freezing rep items, p, s => by
    set d : Dir := .mk fv fb load auth frozen freezing rep items
    rw [findExports]
    dsimp only
    by_cases hgood : amount - s.haveLoad < amount * cfg.minStart
    · rw [if_pos hgood]
      exact Grows.refl s
    rw [if_neg hgood]
    split
    · rename_i c hc
      have hcand := List.find?_some hc
      simp only [Bool.and_eq_true] at hcand
      obtain ⟨hnot, hu⟩ := under_of_child (List.mem_of_find?_eq_some hc) hcand.1.1
      exact Grows.take hnot hu
    obtain ⟨hnd, hsm⟩ :=
      smaller_spec cfg clusterSize target s.alreadyExporting (amount - s.haveLoad) d p
    split
    · rename_i s' hfirst
      exact firstPass_grows (fun x hx => ⟨(hsm x hx).1, (hsm x hx).2.1⟩) hfirst
    have h1 := descendItems_grows false s.alreadyExporting (amount - s.haveLoad) items p 0 s
    have h1' : Grows (Under d p) s _ := h1.mono fun _ _ hq => Below.under (d := d) hq
    have h2 : Grows (Under d p) _ (takeSmaller (amount - s.haveLoad) _ _).1 :=
      takeSmaller_grows _ _ hnd fun x hx => ⟨fun hmem => (h1.mem_ae hmem).elim (hsm x hx).1 fun ⟨_, hb⟩ => by
        have := hb.depth
        have := (hsm x hx).2.2
        omega, (hsm x hx).2.1⟩
    split_ifs with hr1 hr2
    · exact h1'
    · exact h1'.trans h2
    · exact (h1'.trans h2).trans
        ((descendItems_grows true s.alreadyExporting (amount - s.haveLoad) items p 0 _).mono
          fun _ _ hq => Below.under (d := d) hq)

theorem descendItems_grows (rep : Bool) (ae : List DirPath) (need : ℚ) :
    ∀ (ins : List Inode) (p : DirPath) (i : ℕ) (s : Search),
      Grows (Below ins p i) s (descendItems cfg clusterSize amount rep ae need ins p i s).1
  | [], _, _, s => Grows.refl s
  | .mk ino stray dfs :: ins, p, i, s => by
    rw [descendItems]
    have h : Grows (Below (.mk ino stray dfs :: ins) p i) s _ :=
      (descendFrags_grows rep ae need (.mk ino stray dfs) dfs p i 0 s).mono
        fun _ _ hq => BelowFrags.below hq
    split_ifs
    · exact h
    · exact h.trans ((descendItems_grows rep ae need ins p (i + 1) _).mono fun _ _ hq => hq.cons)

theorem descendFrags_grows (rep : Bool) (ae : List DirPath) (need : ℚ) (inode : Inode) :
    ∀ (dfs : List Dir) (p : DirPath) (i j : ℕ) (s : Search),
      Grows (BelowFrags dfs p i j) s
        (descendFrags cfg clusterSize amount rep ae need inode dfs p i j s).1
  | [], _, _, _, s => Grows.refl s
  | sub :: subs, p, i, j, s => by
    rw [descendFrags]
    have hrest : ∀ s', Grows (BelowFrags (sub :: subs) p i j) s'
        (descendFrags cfg clusterSize amount rep ae need inode subs p i (j + 1) s').1 :=
      fun s' => (descendFrags_grows rep ae need inode subs p i (j + 1) s').mono
        fun _ _ hq => BelowFrags.cons hq
    have hsub : Grows (BelowFrags (sub :: subs) p i j) s
        (findExports cfg clusterSize amount 0 sub (p ++ [(i, j)]) s) :=
      (findExports_grows 0 sub (p ++ [(i, j)]) s).mono fun _ _ hq => Under.belowFrags hq
    by_cases hbig : candidate ae (p ++ [(i, j)], inode, sub) = true ∧ minchunk ≤ sub.load ∧
        need < sub.load ∧ sub.rep = rep
    · rw [if_pos hbig]
      dsimp only
      split_ifs
      · exact hsub
      · exact hsub.trans (hrest _)
    · rw [if_neg hbig]
      exact hrest s
end

end Walk

/-! ### The callers append exportable dirfrags of the cache -/

/-- A dirfrag of the cache the walk may take, with its load. -/
def InCache (cache : List Inode) (q : DirPath) (ℓ : ℚ) : Prop :=
  ∃ inode sub, reach cache q = some (inode, sub) ∧ Exportable inode sub ∧ ℓ = sub.load

/-- Below a dirfrag of the cache, `reach` continues from its dentries. -/
theorem reach_append : ∀ {items : List Inode} {p r : DirPath} {inode : Inode} {d : Dir},
    reach items p = some (inode, d) → r ≠ [] → reach items (p ++ r) = reach d.items r
  | _, [], _, _, _, h, _ => by simp [reach] at h
  | items, (i, j) :: p, r, inode, d, h, hr => by
    cases p with
    | nil =>
      simp only [reach, Option.bind_eq_some_iff, Option.some.injEq] at h
      obtain ⟨inode', hi, d', hj, rfl, rfl⟩ := h
      rw [List.cons_append, List.nil_append, reach_cons_of_ne_nil hr]
      simp [hi, hj]
    | cons step p =>
      rw [reach_cons_of_ne_nil (List.cons_ne_nil _ _)] at h
      rw [List.cons_append, reach_cons_of_ne_nil (by simp)]
      simp only [Option.bind_eq_some_iff] at h ⊢
      obtain ⟨inode', hi, d', hj, h⟩ := h
      simp only [hi, hj, Option.bind_some]
      exact reach_append h hr

/-- Another dirfrag of the same inode, one step aside. -/
theorem reach_sibling : ∀ {items : List Inode} {p : DirPath} {inode : Inode} {d : Dir},
    reach items p = some (inode, d) → ∀ {j : ℕ} {sub : Dir}, inode.dirfrags[j]? = some sub →
      reach items (p.dropLast ++ [((p.getLast?.map Prod.fst).getD 0, j)]) = some (inode, sub)
  | _, [], _, _, h, _, _, _ => by simp [reach] at h
  | items, (i, j₀) :: p, inode, d, h, j, sub, hsub => by
    cases p with
    | nil =>
      simp only [reach, Option.bind_eq_some_iff, Option.some.injEq] at h
      obtain ⟨inode', hi, d', -, rfl, rfl⟩ := h
      simp [reach, hi, hsub]
    | cons step p =>
      rw [reach_cons_of_ne_nil (List.cons_ne_nil _ _)] at h
      simp only [Option.bind_eq_some_iff] at h
      obtain ⟨inode', hi, d', hj, h⟩ := h
      have ih := reach_sibling h hsub
      rw [List.dropLast_cons_of_ne_nil (List.cons_ne_nil _ _), List.getLast?_cons_cons,
        List.cons_append, reach_cons_of_ne_nil (by simp)]
      simp [hi, hj, ih]

section Callers

variable {cfg : Config} {clusterSize : ℕ} {cache : List Inode}

/-- The walk from a dirfrag of the cache. -/
theorem findExports_inCache {p : DirPath} {inode : Inode} {d : Dir}
    (h : reach cache p = some (inode, d)) (amount : ℚ) (target : ℤ) (s : Search) :
    Grows (InCache cache) s (findExports cfg clusterSize amount target d p s) :=
  (findExports_grows target d p s).mono fun _ _ ⟨r, hq, inode', sub, hr, hex, hl⟩ => by
    have hne : r ≠ [] := by
      rintro rfl
      simp [reach] at hr
    exact ⟨inode', sub, by rw [hq, reach_append h hne, hr], hex, hl⟩

theorem foldl_grows {α : Type} {Ok : DirPath → ℚ → Prop} {f : Search → α → Search} :
    ∀ (l : List α) (s : Search), (∀ a ∈ l, ∀ s, Grows Ok s (f s a)) → Grows Ok s (l.foldl f s)
  | [], s, _ => Grows.refl s
  | a :: l, s, hf => (hf a List.mem_cons_self s).trans
      (foldl_grows l _ fun a' ha' => hf a' (List.mem_cons_of_mem _ ha'))

/-- `little_dfls` only ever holds dirfrags of `dfls`, so every walk it starts is one of
theirs. -/
theorem littleLoop_grows {Ok : DirPath → ℚ → Prop} {α : Type} (dfls : List α)
    (visit : Search → α → Search) (hvisit : ∀ a ∈ dfls, ∀ s, Grows Ok s (visit s a)) :
    ∀ (l : List α) (acc : List α × Search) (s : Search), (∀ a ∈ acc.1, a ∈ dfls) →
      Grows Ok s acc.2 →
        Grows Ok s (l.foldl (fun acc _ => (acc.1 ++ dfls, (acc.1 ++ dfls).foldl visit acc.2)) acc).2
  | [], _, _, _, h => h
  | _ :: l, acc, s, hacc, h => by
    have hsub : ∀ a ∈ acc.1 ++ dfls, a ∈ dfls := fun a ha =>
      (List.mem_append.mp ha).elim (hacc a) id
    exact littleLoop_grows dfls visit hvisit l _ s hsub
      (h.trans (foldl_grows _ _ fun a ha => hvisit a (hsub a ha)))

theorem findExportsWrapper_grows (rootWorkload : DirPath → Bool) (whoami : ℤ) (p : DirPath)
    (amount : ℚ) (target : ℤ) (s : Search) :
    Grows (InCache cache)
      s (findExportsWrapper cfg clusterSize cache rootWorkload whoami p amount target s) := by
  unfold findExportsWrapper
  split
  · exact Grows.refl s
  rename_i inode d hp
  split_ifs with hstray hroot hzero
  · exact Grows.refl s
  · refine littleLoop_grows _ _ ?_ _ ([], s) s (by simp) (Grows.refl s)
    intro c hc s'
    obtain ⟨k, sub, hk, rfl⟩ := mem_childrenFrags hc
    dsimp only
    split_ifs
    · exact findExports_inCache (reach_sibling hp (by simpa using hk)) amount target s'
    · exact Grows.refl s'
  · exact findExports_inCache hp amount target s
  · split
    · rename_i x pd hpd
      exact findExports_inCache hpd amount target s
    · exact findExports_inCache hp amount target s

theorem candidateLoop_grows (rootWorkload : DirPath → Bool) (whoami : ℤ) (exLoad : ℚ)
    (target : ℤ) : ∀ (pots : List DirPath) (s : Search),
      Grows (InCache cache)
        s (candidateLoop cfg clusterSize cache rootWorkload whoami exLoad target pots s)
  | [], s => Grows.refl s
  | pot :: pots, s => by
    unfold candidateLoop
    split
    · dsimp only
      split_ifs
      · exact candidateLoop_grows rootWorkload whoami exLoad target pots s
      · exact findExportsWrapper_grows rootWorkload whoami pot exLoad target s
      · exact (findExportsWrapper_grows rootWorkload whoami pot exLoad target s).trans
          (candidateLoop_grows rootWorkload whoami exLoad target pots _)
    · exact candidateLoop_grows rootWorkload whoami exLoad target pots s

theorem tryRebalanceSearch_grows (amount : ℚ) (pots : List DirPath) (s : Search) :
    Grows (InCache cache) s (tryRebalanceSearch cfg clusterSize cache amount pots s) := by
  refine foldl_grows pots s fun pot _ s' => ?_
  split
  · split_ifs
    · exact Grows.refl s'
    · rename_i inode d hp _
      exact findExports_inCache hp amount 0 s'
  · exact Grows.refl s'

/-- Across the decisions of `simple_determine_rebalance` the exports stay distinct, since
`already_exporting` is shared, and every one is an exportable dirfrag of the cache. -/
theorem decisionLoop_sound (rootWorkload : DirPath → Bool) (whoami myMdsLoad : ℤ)
    (candidates : List DirPath) :
    ∀ (decisions : List (ℤ × ℚ)) (acc : List (DirPath × ℤ) × List DirPath),
      (acc.1.map Prod.fst).Nodup → (∀ c ∈ acc.1, c.1 ∈ acc.2 ∧ ∃ ℓ, InCache cache c.1 ℓ) →
        let r := decisions.foldl (fun (acc : List (DirPath × ℤ) × List DirPath) dec =>
          let s := candidateLoop cfg clusterSize cache rootWorkload whoami (dec.2 * myMdsLoad) dec.1
            candidates ⟨[], 0, acc.2⟩
          (acc.1 ++ s.exports.map (·, dec.1), s.alreadyExporting)) acc
        (r.1.map Prod.fst).Nodup ∧ ∀ c ∈ r.1, ∃ ℓ, InCache cache c.1 ℓ
  | [], acc, hnd, hacc => ⟨hnd, fun c hc => (hacc c hc).2⟩
  | dec :: decisions, acc, hnd, hacc => by
    set s := candidateLoop cfg clusterSize cache rootWorkload whoami (dec.2 * myMdsLoad) dec.1
      candidates ⟨[], 0, acc.2⟩
    obtain ⟨new, he, hn, -, ha, hx⟩ : Grows (InCache cache) ⟨[], 0, acc.2⟩ s :=
      candidateLoop_grows rootWorkload whoami _ _ candidates _
    rw [List.nil_append] at he
    refine decisionLoop_sound rootWorkload whoami myMdsLoad candidates decisions
      (acc.1 ++ s.exports.map (·, dec.1), s.alreadyExporting) ?_ ?_
    · rw [List.map_append, List.map_map, he, List.map_map]
      refine List.nodup_append.mpr ⟨hnd, by simpa [Function.comp_def] using hn, ?_⟩
      intro a ha b hb hab
      obtain ⟨x, hx', rfl⟩ := List.mem_map.mp hb
      obtain ⟨c, hc, rfl⟩ := List.mem_map.mp ha
      have hcx : c.1 = x.1 := hab
      exact (hx x hx').1 (hcx ▸ (hacc c hc).1)
    · intro c hc
      rcases List.mem_append.mp hc with hc | hc
      · exact ⟨(ha _).mpr (Or.inl (hacc c hc).1), (hacc c hc).2⟩
      · rw [he, List.map_map] at hc
        obtain ⟨x, hx', rfl⟩ := List.mem_map.mp hc
        exact ⟨(ha _).mpr (Or.inr (List.mem_map_of_mem hx')), x.2, (hx x hx').2⟩

end Callers

/-! ### The exports the balancer picks -/

/-- Every walk the balancer starts appends dirfrags of the cache that are distinct, were not
already exporting, are auth, neither frozen nor freezing and not under a stray; it makes
exactly them exporting and adds exactly their loads to `have`. This holds of `find_exports`
from any dirfrag of the cache, of the wrapper, and of the loops of
`simple_determine_rebalance` and `try_rebalance`; and the exports of
`simple_determine_rebalance` stay distinct across its decisions. -/
theorem find_exports_take_fresh_exportable (cfg : Config) (clusterSize : ℕ)
    (cache : List Inode) :
    (∀ (p : DirPath) (inode : Inode) (d : Dir), reach cache p = some (inode, d) →
      ∀ (amount : ℚ) (target : ℤ) (s : Search),
        Grows (InCache cache) s (findExports cfg clusterSize amount target d p s)) ∧
    (∀ (rootWorkload : DirPath → Bool) (whoami : ℤ) (p : DirPath) (amount : ℚ) (target : ℤ)
        (s : Search), Grows (InCache cache) s
          (findExportsWrapper cfg clusterSize cache rootWorkload whoami p amount target s)) ∧
    (∀ (rootWorkload : DirPath → Bool) (whoami : ℤ) (exLoad : ℚ) (target : ℤ)
        (pots : List DirPath) (s : Search), Grows (InCache cache) s
          (candidateLoop cfg clusterSize cache rootWorkload whoami exLoad target pots s)) ∧
    (∀ (amount : ℚ) (pots : List DirPath) (s : Search),
        Grows (InCache cache) s (tryRebalanceSearch cfg clusterSize cache amount pots s)) ∧
    (∀ (rootWorkload : DirPath → Bool) (whoami myMdsLoad : ℤ) (candidates : List DirPath)
        (decisions : List (ℤ × ℚ)),
      let calls := simpleDetermineRebalance cfg clusterSize cache rootWorkload whoami myMdsLoad
        candidates decisions
      (calls.map Prod.fst).Nodup ∧ ∀ c ∈ calls, ∃ ℓ, InCache cache c.1 ℓ) :=
  ⟨fun _ _ _ h => findExports_inCache h, findExportsWrapper_grows, candidateLoop_grows,
    tryRebalanceSearch_grows, fun rootWorkload whoami myMdsLoad candidates decisions =>
      decisionLoop_sound rootWorkload whoami myMdsLoad candidates decisions ([], [])
        List.nodup_nil (by simp)⟩

/-- A base inode with one dirfrag linking two directories, of loads 3 and 2. -/
def sampleDir : Dir :=
  .mk 0 0 10 true false false false
    [.mk 2 false [.mk 0 0 3 true false false false []], .mk 3 false [.mk 0 0 2 true false false false []]]

def sampleCache : List Inode := [.mk 1 false [sampleDir]]

theorem sample_walk_takes_fresh :
    reach sampleCache [(0, 0)] = some (.mk 1 false [sampleDir], sampleDir) ∧
      Grows (InCache sampleCache) ⟨[], 0, []⟩
        (findExports ⟨1 / 5, 6 / 5, 4 / 5, 3 / 10, true⟩ 1 4 0 sampleDir [(0, 0)] ⟨[], 0, []⟩) :=
  ⟨rfl, (find_exports_take_fresh_exportable ⟨1 / 5, 6 / 5, 4 / 5, 3 / 10, true⟩ 1 sampleCache).1
    [(0, 0)] _ _ rfl 4 0 _⟩

end Lunule.FindExports
