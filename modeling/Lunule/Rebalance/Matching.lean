import Mathlib.Algebra.BigOperators.Group.Finset.Piecewise
import Mathlib.Algebra.Field.Rat
import Mathlib.Algebra.Order.Field.Basic
import Mathlib.Algebra.Order.Ring.Rat
import Mathlib.Data.List.Sort
import Mathlib.Tactic.Linarith
import Mathlib.Tactic.Ring

/-!
The matching phase of `MDBalancer::prep_rebalance`, in exact arithmetic over an ordered field.
The in-ranks `0, ..., n - 1` with meta load below `target_load`, their mean, are importers and
the others exporters, each list in load order. Exporters, biggest first, are matched to the
ranks of their `mds_import_map`; then, on odd beats, big exporters to big importers, and on even
beats small exporters to big importers. Every match goes through `try_match`, which moves
`min(maxex, maxim)` from an exporter's remaining excess `get_maxex` to an importer's remaining
room `get_maxim`.

So every rank's exports stay within its excess over the target and its imports within its
room below it, exports and imports balance, and the amounts this rank sends are exactly its
`targets`. The two-pointer loops use up an exporter or an importer at every match, so they end
after at most `n` matches.
-/

namespace Lunule.Rebalance

open Finset

/-- `balance_state_t`: the maps `targets`, `imported` and `exported`, a missing entry reading
`0`. -/
structure BalanceState (α : Type) where
  targets : ℕ → α
  imported : ℕ → α
  exported : ℕ → α

def BalanceState.empty {α : Type} [Zero α] : BalanceState α := ⟨0, 0, 0⟩

/-- The bookkeeping of `try_match`: `howmuch` goes to `targets[im]` if this rank `whoami` is
the exporter, and to `exported[ex]` and `imported[im]`. -/
def BalanceState.transfer {α : Type} [Add α] (whoami : ℕ) (state : BalanceState α)
    (ex im : ℕ) (howmuch : α) : BalanceState α where
  targets := if ex = whoami then Function.update state.targets im (state.targets im + howmuch)
    else state.targets
  imported := Function.update state.imported im (state.imported im + howmuch)
  exported := Function.update state.exported ex (state.exported ex + howmuch)

/-- A sum over the ranks below `n` with the entry of a rank below `n` raised by `h`. -/
theorem sum_update_add {β : Type} [AddCommMonoid β] {f : ℕ → β} {k n : ℕ} (hk : k < n) (h : β) :
    ∑ r ∈ range n, Function.update f k (f k + h) r = ∑ r ∈ range n, f r + h := by
  have hmem : k ∈ range n := mem_range.2 hk
  rw [sum_update_of_mem hmem, sdiff_singleton_eq_erase, ← add_sum_erase _ _ hmem]
  exact add_right_comm _ _ _

variable {α : Type} [Field α] [LinearOrder α] [IsStrictOrderedRing α]

/-- `target_load`: the mean of the meta loads of the in-ranks. -/
def targetLoad (metaLoad : List α) : α := metaLoad.sum / metaLoad.length

/-- The threshold `.001` of the matching loops. -/
def matchThreshold : α := 1 / 1000

section Loops

variable (metaLoad : List α) (target : α) (whoami : ℕ)

/-- `get_maxim(state, im)`. -/
def getMaxim (state : BalanceState α) (im : ℕ) : α :=
  target - metaLoad.getD im 0 - state.imported im

/-- `get_maxex(state, ex)`. -/
def getMaxex (state : BalanceState α) (ex : ℕ) : α :=
  metaLoad.getD ex 0 - target - state.exported ex

/-- `try_match(state, ex, maxex, im, maxim)`, returning the state and the two remainders it
updates through its reference parameters. -/
def tryMatch (state : BalanceState α) (ex : ℕ) (maxex : α) (im : ℕ) (maxim : α) :
    BalanceState α × α × α :=
  if maxex ≤ 0 ∨ maxim ≤ 0 then (state, maxex, maxim)
  else
    let howmuch := min maxex maxim
    if howmuch ≤ 0 then (state, maxex, maxim)
    else (state.transfer whoami ex im howmuch, maxex - howmuch, maxim - howmuch)

/-- The inner loop of the import-map matching, over the ranks of `mds_import_map[ex]`. -/
def matchImportSources : BalanceState α → ℕ → α → List ℕ → BalanceState α
  | state, _, _, [] => state
  | state, ex, maxex, im :: ims =>
    let maxim := getMaxim metaLoad target state im
    if maxim ≤ matchThreshold then matchImportSources state ex maxex ims
    else
      let r := tryMatch whoami state ex maxex im maxim
      if r.2.1 ≤ matchThreshold then r.1 else matchImportSources r.1 ex r.2.1 ims

/-- The import-map matching, over the exporters biggest first. -/
def matchImportMap (importMap : ℕ → List ℕ) : BalanceState α → List ℕ → BalanceState α
  | state, [] => state
  | state, ex :: exs =>
    let maxex := getMaxex metaLoad target state ex
    if maxex ≤ matchThreshold then matchImportMap importMap state exs
    else
      matchImportMap importMap
        (matchImportSources metaLoad target whoami state ex maxex (importMap ex)) exs

/-- The two-pointer loop of the old and the new way, allowed `fuel` matches: `none` when a
further match would be needed. -/
def matchPairs : ℕ → BalanceState α → List ℕ → List ℕ → Option (BalanceState α)
  | fuel, state, ex :: exs, im :: ims =>
    let maxex := getMaxex metaLoad target state ex
    let maxim := getMaxim metaLoad target state im
    if maxex < matchThreshold ∨ maxim < matchThreshold then some state
    else
      match fuel with
      | 0 => none
      | fuel + 1 =>
        let r := tryMatch whoami state ex maxex im maxim
        matchPairs fuel r.1 (if r.2.1 ≤ matchThreshold then exs else ex :: exs)
          (if r.2.2 ≤ matchThreshold then ims else im :: ims)
  | _, state, _, _ => some state

end Loops

/-- `load_map.insert(pair(l, i))` on the ranks of a multimap keyed by meta load: the new rank
goes after every rank of load at most its own. -/
def insertByLoad (metaLoad : List α) (m : List ℕ) (i : ℕ) : List ℕ :=
  let p := m.span fun j => decide (metaLoad.getD j 0 ≤ metaLoad.getD i 0)
  p.1 ++ i :: p.2

/-- `load_map`: the in-ranks `0, ..., n - 1` inserted in turn. -/
def loadMap (metaLoad : List α) : List ℕ :=
  (List.range metaLoad.length).foldl (insertByLoad metaLoad) []

def importers (metaLoad : List α) : List ℕ :=
  (loadMap metaLoad).filter fun i => decide (metaLoad.getD i 0 < targetLoad metaLoad)

def exporters (metaLoad : List α) : List ℕ :=
  (loadMap metaLoad).filter fun i => !decide (metaLoad.getD i 0 < targetLoad metaLoad)

/-- The matching phase of `prep_rebalance` on rank `whoami` at `beat`, the two-pointer loop
allowed as many matches as there are in-ranks. -/
def prepMatch (whoami beat : ℕ) (metaLoad : List α) (importMap : ℕ → List ℕ) :
    Option (BalanceState α) :=
  let target := targetLoad metaLoad
  let state := matchImportMap metaLoad target whoami importMap BalanceState.empty
    (exporters metaLoad).reverse
  if beat % 2 = 1 then
    matchPairs metaLoad target whoami metaLoad.length state (exporters metaLoad).reverse
      (importers metaLoad)
  else
    matchPairs metaLoad target whoami metaLoad.length state (exporters metaLoad)
      (importers metaLoad)

example : (prepMatch 1 1 ([10, 90] : List ℚ) fun _ => []).map
    (fun s => (s.exported 1, s.imported 0, s.targets 0)) = some (40, 40, 40) := by
  decide +kernel

/-! ### What a match keeps -/

variable {metaLoad : List α} {target : α} {whoami : ℕ} {state : BalanceState α}

/-- What the matching keeps: every rank's exports within its excess over the target and its
imports within its room below it, exports and imports of the in-ranks balanced, and `targets`
the part of the imports that this rank sent. -/
structure MatchInv (metaLoad : List α) (target : α) (whoami : ℕ) (state : BalanceState α) :
    Prop where
  exported_nonneg : ∀ r, 0 ≤ state.exported r
  exported_le : ∀ r, state.exported r ≤ max 0 (metaLoad.getD r 0 - target)
  imported_nonneg : ∀ r, 0 ≤ state.imported r
  imported_le : ∀ r, state.imported r ≤ max 0 (target - metaLoad.getD r 0)
  sum_eq : ∑ r ∈ range metaLoad.length, state.exported r =
    ∑ r ∈ range metaLoad.length, state.imported r
  targets_nonneg : ∀ r, 0 ≤ state.targets r
  targets_le : ∀ r, state.targets r ≤ state.imported r
  sum_targets : ∑ r ∈ range metaLoad.length, state.targets r = state.exported whoami

omit [IsStrictOrderedRing α] in
theorem matchInv_empty : MatchInv metaLoad target whoami BalanceState.empty where
  exported_nonneg _ := le_rfl
  exported_le _ := le_max_left _ _
  imported_nonneg _ := le_rfl
  imported_le _ := le_max_left _ _
  sum_eq := rfl
  targets_nonneg _ := le_rfl
  targets_le _ := le_rfl
  sum_targets := by simp [BalanceState.empty]

omit [LinearOrder α] [IsStrictOrderedRing α] in
theorem getMaxex_transfer (ex im : ℕ) (m : α) :
    getMaxex metaLoad target (state.transfer whoami ex im m) ex =
      getMaxex metaLoad target state ex - m := by
  simp only [getMaxex, BalanceState.transfer, Function.update_self]
  ring

omit [LinearOrder α] [IsStrictOrderedRing α] in
theorem getMaxim_transfer (ex im : ℕ) (m : α) :
    getMaxim metaLoad target (state.transfer whoami ex im m) im =
      getMaxim metaLoad target state im - m := by
  simp only [getMaxim, BalanceState.transfer, Function.update_self]
  ring

omit [IsStrictOrderedRing α] in
/-- An entry raised at `k` stays within a bound that it meets at `k`. -/
theorem update_add_le {f g : ℕ → α} {k : ℕ} {m : α} (hf : ∀ r, f r ≤ g r) (hk : f k + m ≤ g k)
    (r : ℕ) : Function.update f k (f k + m) r ≤ g r := by
  rcases eq_or_ne r k with rfl | hr
  · rwa [Function.update_self]
  · rw [Function.update_of_ne hr]
    exact hf r

theorem update_add_nonneg {f : ℕ → α} {k : ℕ} {m : α} (hf : ∀ r, 0 ≤ f r) (hm : 0 < m)
    (r : ℕ) : 0 ≤ Function.update f k (f k + m) r := by
  rcases eq_or_ne r k with rfl | hr
  · rw [Function.update_self]
    exact add_nonneg (hf r) hm.le
  · rw [Function.update_of_ne hr]
    exact hf r

/-- Moving `m` from an in-rank exporter with at least `m` of excess left to an in-rank importer
with at least `m` of room left keeps the invariant. -/
theorem MatchInv.transfer (h : MatchInv metaLoad target whoami state) {ex im : ℕ} {m : α}
    (hex : ex < metaLoad.length) (him : im < metaLoad.length) (hm : 0 < m)
    (hmex : m ≤ getMaxex metaLoad target state ex) (hmim : m ≤ getMaxim metaLoad target state im) :
    MatchInv metaLoad target whoami (state.transfer whoami ex im m) := by
  unfold getMaxex at hmex
  unfold getMaxim at hmim
  have himported : ∀ r, state.imported r ≤ (state.transfer whoami ex im m).imported r :=
    fun r => by
      rcases eq_or_ne r im with rfl | hr
      · simp [BalanceState.transfer, hm.le]
      · simp [BalanceState.transfer, hr]
  refine ⟨update_add_nonneg h.exported_nonneg hm, ?_, update_add_nonneg h.imported_nonneg hm,
    ?_, ?_, ?_, ?_, ?_⟩
  · exact update_add_le h.exported_le (le_max_of_le_right (by linarith))
  · exact update_add_le h.imported_le (le_max_of_le_right (by linarith))
  · simp only [BalanceState.transfer, sum_update_add hex, sum_update_add him, h.sum_eq]
  · intro r
    dsimp only [BalanceState.transfer]
    split_ifs
    · exact update_add_nonneg h.targets_nonneg hm r
    · exact h.targets_nonneg r
  · intro r
    dsimp only [BalanceState.transfer]
    split_ifs
    · refine update_add_le (fun r => (h.targets_le r).trans (himported r)) ?_ r
      simpa [BalanceState.transfer] using add_le_add_right (h.targets_le im) m
    · exact (h.targets_le r).trans (himported r)
  · dsimp only [BalanceState.transfer]
    split_ifs with hw
    · subst hw
      rw [sum_update_add him, h.sum_targets, Function.update_self]
    · rw [h.sum_targets, Function.update_of_ne (Ne.symm hw)]

omit [IsStrictOrderedRing α] in
theorem tryMatch_of_nonpos (whoami : ℕ) (state : BalanceState α) (ex im : ℕ) {maxex maxim : α}
    (h : maxex ≤ 0 ∨ maxim ≤ 0) :
    tryMatch whoami state ex maxex im maxim = (state, maxex, maxim) :=
  if_pos h

omit [IsStrictOrderedRing α] in
theorem tryMatch_of_pos (whoami : ℕ) (state : BalanceState α) (ex im : ℕ) {maxex maxim : α}
    (hex : 0 < maxex) (him : 0 < maxim) :
    tryMatch whoami state ex maxex im maxim =
      (state.transfer whoami ex im (min maxex maxim), maxex - min maxex maxim,
        maxim - min maxex maxim) := by
  rw [tryMatch, if_neg (by simp [not_le.2 hex, not_le.2 him])]
  exact if_neg (not_le.2 (lt_min hex him))

/-- `try_match` on the remainders `get_maxex` and `get_maxim` of two in-ranks keeps the
invariant and returns the remainders of the state it leaves. -/
theorem MatchInv.tryMatch (h : MatchInv metaLoad target whoami state) {ex im : ℕ}
    (hex : ex < metaLoad.length) (him : im < metaLoad.length) :
    let r := tryMatch whoami state ex (getMaxex metaLoad target state ex) im
      (getMaxim metaLoad target state im)
    MatchInv metaLoad target whoami r.1 ∧ r.2.1 = getMaxex metaLoad target r.1 ex ∧
      r.2.2 = getMaxim metaLoad target r.1 im := by
  intro r
  by_cases hpos : 0 < getMaxex metaLoad target state ex ∧ 0 < getMaxim metaLoad target state im
  · have hr := tryMatch_of_pos whoami state ex im hpos.1 hpos.2
    rw [show r = _ from hr]
    exact ⟨h.transfer hex him (lt_min hpos.1 hpos.2) (min_le_left _ _) (min_le_right _ _),
      (getMaxex_transfer _ _ _).symm, (getMaxim_transfer _ _ _).symm⟩
  · have hr := tryMatch_of_nonpos whoami state ex im
      (by rw [not_and_or, not_lt, not_lt] at hpos; exact hpos)
    rw [show r = _ from hr]
    exact ⟨h, rfl, rfl⟩

/-! ### The loops -/

theorem MatchInv.matchImportSources (h : MatchInv metaLoad target whoami state) {ex : ℕ}
    (hex : ex < metaLoad.length) {maxex : α} (hmaxex : maxex = getMaxex metaLoad target state ex)
    {ims : List ℕ} (hims : ∀ im ∈ ims, im < metaLoad.length) :
    MatchInv metaLoad target whoami (matchImportSources metaLoad target whoami state ex maxex ims) := by
  induction ims generalizing state maxex with
  | nil => exact h
  | cons im ims ih =>
    have him := hims im List.mem_cons_self
    have hrest : ∀ i ∈ ims, i < metaLoad.length := fun i hi => hims i (List.mem_cons_of_mem _ hi)
    unfold Rebalance.matchImportSources
    dsimp only
    split_ifs with hskip hdone
    · exact ih h hmaxex hrest
    · subst hmaxex
      exact (h.tryMatch hex him).1
    · subst hmaxex
      obtain ⟨hinv, hmaxex', -⟩ := h.tryMatch hex him
      exact ih hinv hmaxex' hrest

theorem MatchInv.matchImportMap (h : MatchInv metaLoad target whoami state)
    {importMap : ℕ → List ℕ} (himport : ∀ ex, ∀ im ∈ importMap ex, im < metaLoad.length)
    {exs : List ℕ} (hexs : ∀ ex ∈ exs, ex < metaLoad.length) :
    MatchInv metaLoad target whoami (matchImportMap metaLoad target whoami importMap state exs) := by
  induction exs generalizing state with
  | nil => exact h
  | cons ex exs ih =>
    have hrest : ∀ e ∈ exs, e < metaLoad.length := fun e he => hexs e (List.mem_cons_of_mem _ he)
    unfold Rebalance.matchImportMap
    dsimp only
    split_ifs
    · exact ih h hrest
    · exact ih (h.matchImportSources (hexs ex List.mem_cons_self) rfl (himport ex)) hrest

theorem matchThreshold_pos : (0 : α) < matchThreshold := by
  unfold matchThreshold
  norm_num

omit [IsStrictOrderedRing α] in
/-- After `try_match` on two positive remainders, one of the two is used up. -/
theorem sub_min_eq_zero (a b : α) : a - min a b = 0 ∨ b - min a b = 0 := by
  rcases min_choice a b with h | h <;> rw [h] <;> simp

omit [IsStrictOrderedRing α] in
theorem matchPairs_cons (fuel : ℕ) (state : BalanceState α) (ex : ℕ) (exs : List ℕ) (im : ℕ)
    (ims : List ℕ) :
    matchPairs metaLoad target whoami (fuel + 1) state (ex :: exs) (im :: ims) =
      if getMaxex metaLoad target state ex < matchThreshold ∨
          getMaxim metaLoad target state im < matchThreshold then some state
      else
        let r := tryMatch whoami state ex (getMaxex metaLoad target state ex) im
          (getMaxim metaLoad target state im)
        matchPairs metaLoad target whoami fuel r.1
          (if r.2.1 ≤ matchThreshold then exs else ex :: exs)
          (if r.2.2 ≤ matchThreshold then ims else im :: ims) :=
  rfl

omit [IsStrictOrderedRing α] in
theorem forall_mem_ite {P : ℕ → Prop} {c : Prop} [Decidable c] {x : ℕ} {xs : List ℕ}
    (h : ∀ e ∈ x :: xs, P e) : ∀ e ∈ (if c then xs else x :: xs), P e := by
  split_ifs
  · exact fun e he => h e (List.mem_cons_of_mem _ he)
  · exact h

/-- The two-pointer loop over in-ranks, given at least as many matches as it has exporters
and importers, ends, keeping the invariant. -/
theorem MatchInv.matchPairs {fuel : ℕ} {exs ims : List ℕ}
    (h : MatchInv metaLoad target whoami state) (hexs : ∀ ex ∈ exs, ex < metaLoad.length)
    (hims : ∀ im ∈ ims, im < metaLoad.length) (hfuel : exs.length + ims.length ≤ fuel) :
    ∃ state', matchPairs metaLoad target whoami fuel state exs ims = some state' ∧
      MatchInv metaLoad target whoami state' := by
  induction fuel generalizing state exs ims with
  | zero =>
    obtain ⟨rfl, rfl⟩ : exs = [] ∧ ims = [] := by
      simpa [List.length_eq_zero_iff] using hfuel
    exact ⟨state, rfl, h⟩
  | succ fuel ih =>
    rcases exs with _ | ⟨ex, exs⟩
    · exact ⟨state, by cases ims <;> rfl, h⟩
    rcases ims with _ | ⟨im, ims⟩
    · exact ⟨state, rfl, h⟩
    have hex := hexs ex List.mem_cons_self
    have him := hims im List.mem_cons_self
    rw [matchPairs_cons]
    by_cases hstop : getMaxex metaLoad target state ex < matchThreshold ∨
      getMaxim metaLoad target state im < matchThreshold
    · exact ⟨state, if_pos hstop, h⟩
    rw [if_neg hstop]
    rw [not_or, not_lt, not_lt] at hstop
    have hpos1 := matchThreshold_pos.trans_le hstop.1
    have hpos2 := matchThreshold_pos.trans_le hstop.2
    obtain ⟨hinv, -, -⟩ := h.tryMatch hex him
    rw [tryMatch_of_pos whoami state ex im hpos1 hpos2] at hinv ⊢
    have hshort : ∀ a b : α, (a = 0 ∨ b = 0) →
        (if a ≤ matchThreshold then exs else ex :: exs).length +
          (if b ≤ matchThreshold then ims else im :: ims).length ≤ fuel := by
      intro a b hab
      simp only [List.length_cons] at hfuel
      rcases hab with rfl | rfl
      · rw [if_pos matchThreshold_pos.le]
        split_ifs
        · omega
        · rw [List.length_cons]
          omega
      · rw [if_pos matchThreshold_pos.le]
        split_ifs
        · omega
        · rw [List.length_cons]
          omega
    exact ih hinv (forall_mem_ite hexs) (forall_mem_ite hims)
      (hshort _ _ (sub_min_eq_zero _ _))

/-! ### The matching phase -/

section LoadMap

omit [IsStrictOrderedRing α]

theorem insertByLoad_perm (metaLoad : List α) (m : List ℕ) (i : ℕ) :
    (insertByLoad metaLoad m i).Perm (i :: m) := by
  unfold insertByLoad
  rw [List.span_eq_takeWhile_dropWhile]
  refine List.perm_middle.trans ?_
  rw [List.takeWhile_append_dropWhile]

theorem loadMap_perm (metaLoad : List α) : (loadMap metaLoad).Perm (List.range metaLoad.length) := by
  suffices ∀ (l acc : List ℕ), (l.foldl (insertByLoad metaLoad) acc).Perm (acc.reverse ++ l) by
    simpa [loadMap] using this (List.range metaLoad.length) []
  intro l
  induction l with
  | nil => intro acc; simp
  | cons i l ih =>
    intro acc
    refine (ih _).trans ?_
    have hrev : (insertByLoad metaLoad acc i).reverse.Perm (i :: acc).reverse :=
      (List.reverse_perm _).trans ((insertByLoad_perm metaLoad acc i).trans (List.reverse_perm _).symm)
    simpa using hrev.append_right l

theorem mem_loadMap {metaLoad : List α} {i : ℕ} (h : i ∈ loadMap metaLoad) :
    i < metaLoad.length :=
  List.mem_range.1 ((loadMap_perm metaLoad).subset h)

theorem length_exporters_add_importers (metaLoad : List α) :
    (exporters metaLoad).length + (importers metaLoad).length = metaLoad.length := by
  have h := List.length_eq_length_filter_add (l := loadMap metaLoad)
    (fun i => decide (metaLoad.getD i 0 < targetLoad metaLoad))
  rw [(loadMap_perm metaLoad).length_eq, List.length_range] at h
  rw [exporters, importers]
  omega

end LoadMap

/-- The matching phase of `prep_rebalance`, for every vector of meta loads of the in-ranks
`0, ..., n - 1`, every import map whose ranks are in-ranks, and either beat parity: it ends,
exports and imports balance, every rank exports at most its excess over the target and imports
at most its room below it, no rank does both, and `targets` holds only importers and adds up
to what this rank exports. -/
theorem prepMatch_sound (whoami beat : ℕ) (metaLoad : List α) (importMap : ℕ → List ℕ)
    (himport : ∀ ex, ∀ im ∈ importMap ex, im < metaLoad.length) :
    ∃ state, prepMatch whoami beat metaLoad importMap = some state ∧
      ∑ r ∈ range metaLoad.length, state.exported r =
        ∑ r ∈ range metaLoad.length, state.imported r ∧
      (∀ r, 0 ≤ state.exported r ∧
        state.exported r ≤ max 0 (metaLoad.getD r 0 - targetLoad metaLoad)) ∧
      (∀ r, 0 ≤ state.imported r ∧
        state.imported r ≤ max 0 (targetLoad metaLoad - metaLoad.getD r 0)) ∧
      (∀ r, state.exported r = 0 ∨ state.imported r = 0) ∧
      (∀ r, 0 ≤ state.targets r ∧ state.targets r ≤ state.imported r ∧
        (0 < state.targets r → metaLoad.getD r 0 < targetLoad metaLoad)) ∧
      ∑ r ∈ range metaLoad.length, state.targets r = state.exported whoami := by
  have hexs : ∀ ex ∈ exporters metaLoad, ex < metaLoad.length :=
    fun ex hex => mem_loadMap (List.mem_filter.1 hex).1
  have hims : ∀ im ∈ importers metaLoad, im < metaLoad.length :=
    fun im him => mem_loadMap (List.mem_filter.1 him).1
  have hrev : ∀ ex ∈ (exporters metaLoad).reverse, ex < metaLoad.length :=
    fun ex hex => hexs ex (List.mem_reverse.1 hex)
  have hlen := length_exporters_add_importers metaLoad
  have h₀ := (matchInv_empty : MatchInv metaLoad (targetLoad metaLoad) whoami
    BalanceState.empty).matchImportMap himport hrev
  obtain ⟨state, hrun, h⟩ : ∃ state, prepMatch whoami beat metaLoad importMap = some state ∧
      MatchInv metaLoad (targetLoad metaLoad) whoami state := by
    unfold prepMatch
    dsimp only
    split_ifs
    · exact h₀.matchPairs hrev hims (by rw [List.length_reverse]; omega)
    · exact h₀.matchPairs hexs hims (by omega)
  refine ⟨state, hrun, h.sum_eq, fun r => ⟨h.exported_nonneg r, h.exported_le r⟩,
    fun r => ⟨h.imported_nonneg r, h.imported_le r⟩, fun r => ?_, fun r => ?_, h.sum_targets⟩
  · rcases le_or_gt (targetLoad metaLoad) (metaLoad.getD r 0) with hr | hr
    · right
      have := h.imported_le r
      rw [max_eq_left (by linarith)] at this
      exact le_antisymm this (h.imported_nonneg r)
    · left
      have := h.exported_le r
      rw [max_eq_left (by linarith)] at this
      exact le_antisymm this (h.exported_nonneg r)
  · refine ⟨h.targets_nonneg r, h.targets_le r, fun hpos => ?_⟩
    have himp := hpos.trans_le ((h.targets_le r).trans (h.imported_le r))
    by_contra hge
    rw [max_eq_left (by linarith [not_lt.1 hge])] at himp
    exact lt_irrefl _ himp

/-- Rank 1 of two in-ranks with meta loads `10` and `90`, whose import map lists rank 0, at an
odd beat. -/
theorem prepMatch_sound_tenNinety :
    (∀ ex, ∀ im ∈ (fun _ => [0] : ℕ → List ℕ) ex, im < ([10, 90] : List ℚ).length) ∧
    ∃ state, prepMatch 1 1 ([10, 90] : List ℚ) (fun _ => [0]) = some state ∧
      ∑ r ∈ range 2, state.exported r = ∑ r ∈ range 2, state.imported r ∧
      (∀ r, 0 ≤ state.exported r ∧
        state.exported r ≤ max 0 (([10, 90] : List ℚ).getD r 0 - targetLoad [10, 90])) ∧
      (∀ r, 0 ≤ state.imported r ∧
        state.imported r ≤ max 0 (targetLoad [10, 90] - ([10, 90] : List ℚ).getD r 0)) ∧
      (∀ r, state.exported r = 0 ∨ state.imported r = 0) ∧
      (∀ r, 0 ≤ state.targets r ∧ state.targets r ≤ state.imported r ∧
        (0 < state.targets r → ([10, 90] : List ℚ).getD r 0 < targetLoad [10, 90])) ∧
      ∑ r ∈ range 2, state.targets r = state.exported 1 := by
  have himport : ∀ ex, ∀ im ∈ (fun _ => [0] : ℕ → List ℕ) ex, im < ([10, 90] : List ℚ).length := by
    intro ex im him
    rw [List.mem_singleton.1 him]
    decide
  exact ⟨himport, prepMatch_sound 1 1 [10, 90] (fun _ => [0]) himport⟩

end Lunule.Rebalance
