import Lunule.Flock.Global

/-!
What every system reachable by add_lock, remove_lock, remove_waiting and remove_all_from
keeps. global_waiting_locks stays sorted, and its entries for an inode are, up to
ceph_filelock_compare, the waiting locks of that inode when it is an fcntl state and none
otherwise. The agreement is up to the comparison and not exact: remove_global_waiting
erases the first equal entry of the state, and for a new client equal locks may differ in
their pid. The locks of every inode stay keyed by their start, and its waiting iterators
distinct.
-/

namespace Lunule.Flock

open SortedBag

/-! ## Steps that keep the waiting locks -/

/-- `st'` differs from `st` in its held locks and their counts only, and reuses no iterator. -/
structure HeldOnly (st st' : LockState) : Prop where
  type : st'.type = st.type
  waiting : st'.waiting = st.waiting
  nextId : st.nextId ≤ st'.nextId

theorem HeldOnly.refl (st : LockState) : HeldOnly st st := ⟨rfl, rfl, le_rfl⟩

theorem HeldOnly.trans {st₀ st st' : LockState} (h : HeldOnly st₀ st) (h' : HeldOnly st st') :
    HeldOnly st₀ st' :=
  ⟨h'.type.trans h.type, h'.waiting.trans h.waiting, h.nextId.trans h'.nextId⟩

theorem heldClosed_heldOnly (st₀ : LockState) : HeldClosed (HeldOnly st₀) where
  insertHeld _ _ h := h.trans ⟨rfl, rfl, Nat.le_succ _⟩
  eraseHeld _ _ h := h.trans ⟨rfl, rfl, le_rfl⟩
  setLength _ _ _ h := h.trans ⟨rfl, rfl, le_rfl⟩
  counts _ _ h := h.trans ⟨rfl, rfl, le_rfl⟩

/-! ## Waiting iterators -/

/-- The waiting locks have distinct iterators, all below the next one. -/
structure LockState.WaitIds (st : LockState) : Prop where
  nodup : (st.waiting.map (·.id)).Nodup
  lt : ∀ e ∈ st.waiting, e.id < st.nextId

section WaitIds

variable {st st' : LockState}

theorem LockState.WaitIds.sublist (h : st.WaitIds) (hs : st'.waiting.Sublist st.waiting)
    (hn : st.nextId ≤ st'.nextId) : st'.WaitIds :=
  ⟨(hs.map _).nodup h.nodup, fun e he => (h.lt e (hs.subset he)).trans_le hn⟩

theorem LockState.WaitIds.heldOnly (h : st.WaitIds) (h' : HeldOnly st st') : st'.WaitIds :=
  h.sublist (h'.waiting ▸ List.Sublist.refl _) h'.nextId

theorem waitIds_addWaiting (h : st.WaitIds) (fl : Filelock) : (addWaiting st fl).WaitIds := by
  have hperm := Multimap.perm_insert st.waiting ⟨st.nextId, fl.start, fl⟩
  refine ⟨(hperm.map _).nodup_iff.2 ?_, fun e he => ?_⟩
  · rw [List.map_cons, List.nodup_cons]
    refine ⟨fun hmem => ?_, h.nodup⟩
    obtain ⟨e, he, hid⟩ := List.mem_map.1 hmem
    exact absurd hid (h.lt e he).ne
  · rcases List.mem_cons.1 (hperm.subset he) with rfl | he
    · exact Nat.lt_succ_self _
    · exact (h.lt e he).trans (Nat.lt_succ_self _)

theorem mem_of_findWaiting {fl : Filelock} :
    ∀ {l : List Entry} {e : Entry}, findWaiting fl l = some e → e ∈ l
  | [], _, h => by simp [findWaiting] at h
  | x :: l, e, h => by
    unfold findWaiting at h
    split_ifs at h
    · cases h
      exact List.mem_cons_self
    · exact List.mem_cons_of_mem x (mem_of_findWaiting h)

/-- What remove_waiting does: nothing, or it erases a waiting lock that stands for `fl`. -/
theorem removeWaiting_cases (st : LockState) (fl : Filelock) :
    (findWaiting fl (waitingFrom st fl) = none ∧ removeWaiting st fl = st) ∨
      ∃ e ∈ st.waiting, findWaiting fl (waitingFrom st fl) = some e ∧
        (removeWaiting st fl).type = st.type ∧
        (removeWaiting st fl).waiting = Multimap.erase st.waiting e.id ∧
        (removeWaiting st fl).nextId = st.nextId := by
  unfold removeWaiting
  split
  · exact .inl ⟨‹_›, rfl⟩
  · rename_i e he
    exact .inr ⟨e, (List.dropWhile_sublist _).subset (mem_of_findWaiting he), he, rfl, rfl, rfl⟩

theorem waitIds_removeWaiting (h : st.WaitIds) (fl : Filelock) : (removeWaiting st fl).WaitIds := by
  rcases removeWaiting_cases st fl with ⟨-, hst⟩ | ⟨e, -, -, -, hw, hn⟩
  · rwa [hst]
  · exact h.sublist (hw ▸ List.filter_sublist) hn.ge

/-- What remove_all_from leaves of the waiting locks. -/
theorem removeAllFrom_waiting (st : LockState) (c : ℤ) :
    (removeAllFrom st c).1.type = st.type ∧ (removeAllFrom st c).1.nextId = st.nextId ∧
      (removeAllFrom st c).1.waiting =
        if (OrdMap.find? st.waitingCounts c).isSome then st.waiting.filter fun e => clientKey e.val ≠ c
        else st.waiting := by
  unfold removeAllFrom
  by_cases hh : (OrdMap.find? st.heldCounts c).isSome <;>
    by_cases hw : (OrdMap.find? st.waitingCounts c).isSome <;> simp [hh, hw]

theorem waitIds_removeAllFrom (h : st.WaitIds) (c : ℤ) : (removeAllFrom st c).1.WaitIds := by
  obtain ⟨-, hn, hw⟩ := removeAllFrom_waiting st c
  refine h.sublist ?_ hn.ge
  rw [hw]
  split_ifs
  · exact List.filter_sublist
  · exact List.Sublist.refl _

end WaitIds

/-! ## The ranks in the global multimap -/

/-- The ranks of the global entries that wait in state `s`. -/
def ranksOf (g : List (Filelock × ℕ)) (s : ℕ) : List ℕ := (g.filter fun q => q.2 = s).map (lockRank ·.1)

/-- The ranks the global multimap holds for a lock state: those of its waiting locks, for an
fcntl state. -/
def waitRanks (st : LockState) : List ℕ :=
  if st.type = .fcntl then st.waiting.map (lockRank ·.val) else []

theorem waitRanks_addWaiting (st : LockState) (fl : Filelock) :
    (waitRanks (addWaiting st fl)).Perm
      (if st.type = .fcntl then lockRank fl :: waitRanks st else waitRanks st) := by
  unfold waitRanks
  by_cases hf : st.type = .fcntl
  · simp only [addWaiting, hf, if_true]
    exact (Multimap.perm_insert st.waiting ⟨st.nextId, fl.start, fl⟩).map _
  · simp [addWaiting, hf]

theorem ranksOf_cons (q : Filelock × ℕ) (g : List (Filelock × ℕ)) (t : ℕ) :
    ranksOf (q :: g) t = if q.2 = t then lockRank q.1 :: ranksOf g t else ranksOf g t := by
  by_cases h : q.2 = t <;> simp [ranksOf, h]

theorem ranksOf_perm {g g' : List (Filelock × ℕ)} (h : g.Perm g') (t : ℕ) :
    (ranksOf g t).Perm (ranksOf g' t) :=
  (h.filter _).map _

theorem ranksOf_globalInsert (g : List (Filelock × ℕ)) (fl : Filelock) (s t : ℕ) :
    (ranksOf (globalInsert g fl s) t).Perm
      (if s = t then lockRank fl :: ranksOf g t else ranksOf g t) := by
  have h := ranksOf_perm (perm_insert globalCmp g (fl, s)) t
  rwa [ranksOf_cons] at h

/-- remove_global_waiting of a lock whose rank the state has in the multimap takes out one
entry of that rank, and only for that state. -/
theorem ranksOf_removeGlobalWaiting {g : List (Filelock × ℕ)} (hg : Sorted globalCmp g) {fl : Filelock}
    {s : ℕ} (hx : lockRank fl ∈ ranksOf g s) (t : ℕ) :
    (ranksOf g t).Perm (if s = t then lockRank fl :: ranksOf (removeGlobalWaiting g fl s) t
      else ranksOf (removeGlobalWaiting g fl s) t) := by
  obtain ⟨x, hxg, hxr⟩ := List.mem_map.1 hx
  obtain ⟨hxg, hxs⟩ := List.mem_filter.1 hxg
  have hxa : globalCmp x (fl, s) = .eq := by
    rw [globalCmp_eq, hxr]
    exact compare_eq_iff_eq.2 rfl
  obtain ⟨y, -, hya, hys, hperm⟩ :=
    exists_perm_eraseFirst globalCmp_eq hg hxg hxa (p := fun q => decide (q.2 = s)) hxs
  have hy2 : y.2 = s := by simpa using hys
  have hy1 : lockRank y.1 = lockRank fl := by
    rw [globalCmp_eq] at hya
    exact compare_eq_iff_eq.1 hya
  have h := ranksOf_perm hperm t
  rwa [ranksOf_cons, hy2, hy1] at h

/-- remove_all_from's loop over the client's waiting locks takes their ranks out of the
state's entries and leaves the other states' alone. -/
theorem ranksOf_foldl_removeGlobalWaiting (s : ℕ) :
    ∀ (gone : List Entry) {g : List (Filelock × ℕ)} {R : List ℕ}, Sorted globalCmp g →
      (ranksOf g s).Perm (gone.map (lockRank ·.val) ++ R) →
      Sorted globalCmp (gone.foldl (fun g e => removeGlobalWaiting g e.val s) g) ∧
      (ranksOf (gone.foldl (fun g e => removeGlobalWaiting g e.val s) g) s).Perm R ∧
      ∀ t ≠ s, (ranksOf (gone.foldl (fun g e => removeGlobalWaiting g e.val s) g) t).Perm (ranksOf g t)
  | [], _, _, hg, h => ⟨hg, h, fun _ _ => .refl _⟩
  | e :: gone, g, R, hg, h => by
    have hmem : lockRank e.val ∈ ranksOf g s := h.symm.subset List.mem_cons_self
    have hrem := ranksOf_removeGlobalWaiting hg hmem
    have hs : (ranksOf (removeGlobalWaiting g e.val s) s).Perm (gone.map (lockRank ·.val) ++ R) := by
      have h' := (hrem s).symm.trans h
      rw [if_pos rfl] at h'
      exact h'.cons_inv
    obtain ⟨hsorted, hR, hother⟩ :=
      ranksOf_foldl_removeGlobalWaiting s gone (hg.eraseFirst globalCmp _ _) hs
    refine ⟨hsorted, hR, fun t ht => (hother t ht).trans ?_⟩
    have h' := hrem t
    rw [if_neg (Ne.symm ht)] at h'
    exact h'.symm

/-! ## The invariant -/

/-- What every reachable system keeps. -/
structure Sys.Inv (sys : Sys) : Prop where
  sorted : Sorted globalCmp sys.global
  index : ∀ s, (ranksOf sys.global s).Perm (waitRanks (sys.states s))
  keyed : ∀ s, (sys.states s).Keyed
  ids : ∀ s, (sys.states s).WaitIds

theorem Sys.inv_init (types : ℕ → LockRule) : (Sys.init types).Inv where
  sorted := List.Pairwise.nil
  index s := by simp [ranksOf, waitRanks, Sys.init, LockState.empty]
  keyed _ := ⟨fun _ h => absurd h List.not_mem_nil, fun _ h => absurd h List.not_mem_nil⟩
  ids _ := ⟨List.nodup_nil, fun _ h => absurd h List.not_mem_nil⟩

namespace Sys.Inv

variable {sys : Sys} (hinv : sys.Inv)
include hinv

/-- Every global entry stands for a waiting lock of an fcntl state, with the same rank. -/
theorem backed {q : Filelock × ℕ} (hq : q ∈ sys.global) :
    (sys.states q.2).type = .fcntl ∧ ∃ w ∈ (sys.states q.2).waiting, lockRank w.val = lockRank q.1 := by
  have hr : lockRank q.1 ∈ waitRanks (sys.states q.2) :=
    (hinv.index q.2).subset (List.mem_map_of_mem (List.mem_filter.2 ⟨hq, by simp⟩))
  unfold waitRanks at hr
  split_ifs at hr with ht
  · obtain ⟨w, hw, hwr⟩ := List.mem_map.1 hr
    exact ⟨ht, w, hw, hwr⟩
  · simp at hr

/-- An update of inode `s` keeps the invariant when the new state agrees with the new
multimap there and the multimap is the same for every other inode. -/
theorem update {s : ℕ} {st : LockState} {g : List (Filelock × ℕ)} (hsorted : Sorted globalCmp g)
    (hs : (ranksOf g s).Perm (waitRanks st)) (ht : ∀ t ≠ s, (ranksOf g t).Perm (ranksOf sys.global t))
    (hk : st.Keyed) (hw : st.WaitIds) : (⟨Function.update sys.states s st, g⟩ : Sys).Inv where
  sorted := hsorted
  index t := by
    by_cases hts : t = s
    · subst hts
      simpa using hs
    · simpa [Function.update_of_ne hts] using (ht t hts).trans (hinv.index t)
  keyed t := by
    by_cases hts : t = s
    · subst hts
      simpa using hk
    · simpa [Function.update_of_ne hts] using hinv.keyed t
  ids t := by
    by_cases hts : t = s
    · subst hts
      simpa using hw
    · simpa [Function.update_of_ne hts] using hinv.ids t

theorem heldOnly {s : ℕ} {st : LockState} (hst : HeldOnly (sys.states s) st) (hk : st.Keyed) :
    (sys.set s st).Inv := by
  have hr : waitRanks st = waitRanks (sys.states s) := by
    rw [waitRanks, waitRanks, hst.type, hst.waiting]
  exact hinv.update hinv.sorted (hr ▸ hinv.index s) (fun _ _ => .refl _) hk
    ((hinv.ids s).heldOnly hst)

theorem addWaiting (s : ℕ) (fl : Filelock) : (sys.addWaiting s fl).Inv := by
  refine hinv.update ?_ ?_ ?_ (keyed_addWaiting (hinv.keyed s) fl) (waitIds_addWaiting (hinv.ids s) fl)
  · split_ifs
    · exact hinv.sorted.insert globalCmp_eq _
    · exact hinv.sorted
  · have hwr := waitRanks_addWaiting (sys.states s) fl
    split_ifs at hwr ⊢
    · refine ((ranksOf_globalInsert _ fl s s).trans ?_).trans hwr.symm
      rw [if_pos rfl]
      exact (hinv.index s).cons _
    · exact (hinv.index s).trans hwr.symm
  · intro t ht
    split_ifs
    · simpa [if_neg (Ne.symm ht)] using ranksOf_globalInsert sys.global fl s t
    · exact .refl _

theorem removeWaiting (s : ℕ) (fl : Filelock) : (sys.removeWaiting s fl).Inv := by
  rcases removeWaiting_cases (sys.states s) fl with ⟨hf, hst⟩ | ⟨e, he, hf, htype, hw, -⟩
  · have hsys : sys.removeWaiting s fl = ⟨Function.update sys.states s (sys.states s), sys.global⟩ := by
      simp only [Sys.removeWaiting, hf, hst]
    rw [hsys]
    exact hinv.update hinv.sorted (hinv.index s) (fun _ _ => .refl _) (hinv.keyed s) (hinv.ids s)
  · have hk := keyed_removeWaiting (hinv.keyed s) fl
    have hid := waitIds_removeWaiting (hinv.ids s) fl
    simp only [Sys.removeWaiting, hf]
    by_cases hfc : (sys.states s).type = .fcntl
    · have hwait : (waitRanks (sys.states s)).Perm
          (lockRank e.val :: waitRanks (Flock.removeWaiting (sys.states s) fl)) := by
        rw [waitRanks, waitRanks, htype, if_pos hfc, if_pos hfc, hw]
        exact (Multimap.perm_erase (hinv.ids s).nodup he).map _
      have hmem : lockRank e.val ∈ ranksOf sys.global s :=
        (hinv.index s).symm.subset (hwait.symm.subset List.mem_cons_self)
      have hrem := ranksOf_removeGlobalWaiting hinv.sorted hmem
      rw [if_pos hfc]
      refine hinv.update (hinv.sorted.eraseFirst globalCmp _ _) ?_ (fun t ht => ?_) hk hid
      · have h' := ((hrem s).symm.trans (hinv.index s)).trans hwait
        rw [if_pos rfl] at h'
        exact h'.cons_inv
      · have h' := hrem t
        rw [if_neg (Ne.symm ht)] at h'
        exact h'.symm
    · rw [if_neg hfc]
      have hr : waitRanks (Flock.removeWaiting (sys.states s) fl) = waitRanks (sys.states s) := by
        rw [waitRanks, waitRanks, htype, if_neg hfc, if_neg hfc]
      exact hinv.update hinv.sorted (hr ▸ hinv.index s) (fun _ _ => .refl _) hk hid

theorem removeAllFrom (s : ℕ) (c : ℤ) : (sys.removeAllFrom s c).1.Inv := by
  obtain ⟨htype, -, hw⟩ := removeAllFrom_waiting (sys.states s) c
  have hk := keyed_removeAllFrom (hinv.keyed s) c
  have hid := waitIds_removeAllFrom (hinv.ids s) c
  simp only [Sys.removeAllFrom]
  split_ifs with hgo
  · have hwait : (waitRanks (sys.states s)).Perm
        ((((sys.states s).waiting.filter fun e => clientKey e.val = c).map (lockRank ·.val)) ++
          waitRanks (Flock.removeAllFrom (sys.states s) c).1) := by
      rw [waitRanks, waitRanks, htype, if_pos hgo.2, if_pos hgo.2, hw, if_pos hgo.1, ← List.map_append]
      refine ((List.filter_append_perm (fun e => clientKey e.val = c) _).symm.map _).trans ?_
      simp only [decide_not]
      exact .refl _
    obtain ⟨hsorted, hs, hother⟩ :=
      ranksOf_foldl_removeGlobalWaiting s _ hinv.sorted ((hinv.index s).trans hwait)
    exact hinv.update hsorted hs hother hk hid
  · have hr : waitRanks (Flock.removeAllFrom (sys.states s) c).1 = waitRanks (sys.states s) := by
      rw [waitRanks, waitRanks, htype, hw]
      by_cases hfc : (sys.states s).type = .fcntl
      · rw [if_pos hfc, if_pos hfc, if_neg fun h => hgo ⟨h, hfc⟩]
      · rw [if_neg hfc, if_neg hfc]
    exact hinv.update hinv.sorted (hr ▸ hinv.index s) (fun _ _ => .refl _) hk hid

theorem removeLock (s : ℕ) (r : Filelock) : (sys.removeLock s r).Inv :=
  hinv.heldOnly ((heldClosed_heldOnly _).removeLock (.refl _) r)
    (heldClosed_keyed.removeLock (hinv.keyed s) r)

theorem addLock {s : ℕ} {nl : Filelock} {w r : Bool} {q : Sys × Bool × Bool}
    (hq : sys.addLock s nl w r = some q) : q.1.Inv := by
  unfold Sys.addLock at hq
  dsimp only at hq
  split_ifs at hq
  · cases hq
    exact hinv
  · cases hq
    exact hinv.addWaiting s nl
  · cases hq
    exact hinv
  · obtain ⟨a, ha, rfl⟩ := Option.map_eq_some_iff.mp hq
    have h₁ := hinv.removeWaiting s nl
    exact h₁.heldOnly ((heldClosed_heldOnly _).addHeld ((heldClosed_heldOnly _).adjustLocks (.refl _) ha) _)
      (heldClosed_keyed.addHeld (heldClosed_keyed.adjustLocks (h₁.keyed s) ha) _)

theorem step {e : SysEvent} {sys' : Sys} (hs : sys.step e = some sys') : sys'.Inv := by
  cases e with
  | addLock s l w r =>
    obtain ⟨q, hq, rfl⟩ := Option.map_eq_some_iff.mp hs
    exact hinv.addLock hq
  | removeLock s l =>
    cases hs
    exact hinv.removeLock s l
  | removeWaiting s l =>
    cases hs
    exact hinv.removeWaiting s l
  | removeAllFrom s c =>
    cases hs
    exact hinv.removeAllFrom s c

end Sys.Inv

/-- Every system reachable from empty lock states keeps the invariant. -/
theorem Sys.inv_run (types : ℕ → LockRule) (evs : List SysEvent) {sys : Sys}
    (hrun : Runs.run Sys.step (Sys.init types) evs = some sys) : sys.Inv :=
  Runs.run_invariant Sys.step Sys.Inv (fun _ _ _ h hs => h.step hs) evs _ _ (Sys.inv_init types) hrun

end Lunule.Flock
