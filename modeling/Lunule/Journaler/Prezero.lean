import Lunule.Journaler

/-!
The zeroing ahead of the journal's writes: `_issue_prezero`, `_finish_prezero`, and the clamp
`_do_flush` makes against `prezero_pos`.

`_issue_prezero` zeroes from `prezeroing_pos` up to a period boundary, a period or the rest of
one at a time, so the ranges issued since the journal was opened at `w0` are the pieces of
`[w0, prezeroing_pos)` cut at period boundaries. The filer completes them in any order:
`_finish_prezero` moves `prezero_pos` over the piece it is at and over the parked pieces that
follow, and parks any other piece in `pending_zero`. `_do_flush` writes only up to a period
below `prezero_pos`, and a flush cut short for that is taken up again by `_finish_prezero`
when `prezero_pos` moves.
-/

namespace Lunule.Journaler

open OrdMap Runs

/-! ### The pieces of the zeroed region -/

section Pieces

variable {p w0 s a b pos : ℕ}

/-- The length of the zero request `_issue_prezero` sends from `pos`: the rest of its period. -/
def pieceLen (p pos : ℕ) : ℕ := if pos % p = 0 then p else p - pos % p

/-- Where a zero request can start: at the opening position `w0`, or at a period boundary
past it. -/
def IsStart (p w0 s : ℕ) : Prop := w0 ≤ s ∧ (s = w0 ∨ s % p = 0)

/-- A piece ends at the next period boundary. -/
theorem add_pieceLen (hp : 0 < p) (s : ℕ) : s + pieceLen p s = p * (s / p) + p := by
  have hdiv := Nat.div_add_mod s p
  have hmod := Nat.mod_lt s hp
  unfold pieceLen
  split_ifs <;> omega

theorem pieceLen_pos (hp : 0 < p) (s : ℕ) : 0 < pieceLen p s := by
  have := Nat.mod_lt s hp
  unfold pieceLen
  split_ifs <;> omega

theorem IsStart.next (hp : 0 < p) (hs : IsStart p w0 s) : IsStart p w0 (s + pieceLen p s) := by
  refine ⟨hs.1.trans (Nat.le_add_right _ _), Or.inr ?_⟩
  rw [add_pieceLen hp, ← Nat.mul_succ]
  exact Nat.mul_mod_right p _

/-- A period boundary past `w0` is a start. -/
theorem isStart_of_mod (ha : w0 ≤ a) (hmod : a % p = 0) : IsStart p w0 a :=
  ⟨ha, Or.inr hmod⟩

/-- Starts lie a whole piece apart: the one after `a` is at the end of `a`'s piece or later. -/
theorem IsStart.add_pieceLen_le (hp : 0 < p) (ha : IsStart p w0 a) (hb : IsStart p w0 b)
    (hab : a < b) : a + pieceLen p a ≤ b := by
  have hbmod : b % p = 0 := hb.2.resolve_left (by have := ha.1; omega)
  have hb' : p * (b / p) = b := by
    have := Nat.div_add_mod b p
    omega
  have hq : a / p < b / p := by
    apply Nat.lt_of_mul_lt_mul_left (a := p)
    have := Nat.div_add_mod a p
    omega
  have hle : p * (a / p) + p ≤ p * (b / p) := by
    rw [← Nat.mul_add_one]
    exact Nat.mul_le_mul_left p hq
  rw [add_pieceLen hp]
  omega

end Pieces

/-! ### The loops of `_issue_prezero` and `_finish_prezero` -/

section Loops

variable {p w0 : ℕ}

/-- `_issue_prezero`'s loop from a start `pos` up to a period boundary `target`: it stops at
`target` and sends exactly the pieces that start in `[pos, target)`. -/
theorem zeroRequests_spec (hp : 0 < p) {target : ℕ} (htarget : target % p = 0) :
    ∀ fuel pos, IsStart p w0 pos → pos ≤ target → target - pos ≤ fuel →
      (zeroRequests p fuel pos target).2 = target ∧ Sorted (zeroRequests p fuel pos target).1 ∧
      ∀ s l, find? (zeroRequests p fuel pos target).1 s = some l ↔
        IsStart p w0 s ∧ pos ≤ s ∧ s < target ∧ l = pieceLen p s
  | 0, pos, _, hle, hfuel => by
    obtain rfl : pos = target := by omega
    refine ⟨rfl, List.Pairwise.nil, fun s l => ?_⟩
    simp only [zeroRequests, find?, reduceCtorEq, false_iff]
    omega
  | fuel + 1, pos, hpos, hle, hfuel => by
    by_cases hlt : pos < target
    · have hnext := hpos.next hp
      have hend : pos + pieceLen p pos ≤ target :=
        hpos.add_pieceLen_le hp (isStart_of_mod (hpos.1.trans hlt.le) htarget) hlt
      have hlen := pieceLen_pos hp pos
      obtain ⟨hto, hsorted, hfind⟩ :=
        zeroRequests_spec hp htarget fuel _ hnext hend (by omega)
      have hstep : zeroRequests p (fuel + 1) pos target =
          ((pos, pieceLen p pos) :: (zeroRequests p fuel (pos + pieceLen p pos) target).1,
            (zeroRequests p fuel (pos + pieceLen p pos) target).2) := by
        simp only [zeroRequests, if_pos hlt]
        rfl
      rw [hstep]
      refine ⟨hto, ?_, fun s l => ?_⟩
      · simp only [Sorted, keys_cons, List.pairwise_cons]
        refine ⟨fun k hk => ?_, hsorted⟩
        obtain ⟨l, hl⟩ := Option.isSome_iff_exists.mp (find?_isSome_of_mem hk)
        have := ((hfind k l).mp hl).2.1
        omega
      · simp only [find?]
        split_ifs with hs
        · subst hs
          constructor
          · rintro ⟨⟩
            exact ⟨hpos, le_rfl, hlt, rfl⟩
          · rintro ⟨-, -, -, rfl⟩
            rfl
        · rw [hfind]
          constructor
          · rintro ⟨hst, hge, hlt', rfl⟩
            exact ⟨hst, by omega, hlt', rfl⟩
          · rintro ⟨hst, hge, hlt', rfl⟩
            exact ⟨hst, hpos.add_pieceLen_le hp hst (by omega), hlt', rfl⟩
    · obtain rfl : pos = target := by omega
      refine ⟨by simp [zeroRequests], by simp [zeroRequests, Sorted], fun s l => ?_⟩
      simp only [zeroRequests, lt_irrefl, if_false, find?, reduceCtorEq, false_iff]
      omega

/-- `_finish_prezero`'s loop over `pending_zero` from `pos`: it takes off the parked pieces
that follow one another from `pos`, and leaves the parked pieces past where it stops. -/
theorem popZeroes_spec (hp : 0 < p) :
    ∀ (pending : List (ℕ × ℕ)) (pos : ℕ), Sorted pending → IsStart p w0 pos →
      (∀ s l, find? pending s = some l → IsStart p w0 s ∧ l = pieceLen p s ∧ pos ≤ s) →
      pos ≤ (popZeroes pos pending).1 ∧ IsStart p w0 (popZeroes pos pending).1 ∧
      Sorted (popZeroes pos pending).2 ∧ (popZeroes pos pending).1 ∉ keys pending ∧
      (∀ s l, find? (popZeroes pos pending).2 s = some l ↔
        (popZeroes pos pending).1 < s ∧ find? pending s = some l) ∧
      ∀ s, IsStart p w0 s → pos ≤ s → s < (popZeroes pos pending).1 → s ∈ keys pending
  | [], pos, _, hpos, _ => by
    simp only [popZeroes]
    refine ⟨le_rfl, hpos, List.Pairwise.nil, List.not_mem_nil, fun s l => ?_,
      fun s _ h1 h2 => by omega⟩
    simp [find?]
  | (s0, l0) :: rest, pos, hsorted, hpos, hpieces => by
    have hrest : (∀ k ∈ keys rest, s0 < k) ∧ Sorted rest := by simpa [Sorted] using hsorted
    obtain ⟨hs0, hl0, hge0⟩ := hpieces s0 l0 (by simp [find?])
    by_cases heq : s0 = pos
    · subst heq
      have hlen := pieceLen_pos hp s0
      have hpieces' : ∀ s l, find? rest s = some l →
          IsStart p w0 s ∧ l = pieceLen p s ∧ s0 + l0 ≤ s := by
        intro s l hsl
        have hlt : s0 < s := hrest.1 s (mem_keys_of_find? hsl)
        have hne : s ≠ s0 := ne_of_gt hlt
        obtain ⟨hst, hl, -⟩ := hpieces s l (by simp [find?, hne, hsl])
        exact ⟨hst, hl, hl0 ▸ hs0.add_pieceLen_le hp hst hlt⟩
      obtain ⟨hle, hst, hsort, hnot, hfind, hcov⟩ :=
        popZeroes_spec hp rest (s0 + l0) hrest.2 (hl0 ▸ hs0.next hp) hpieces'
      have hstep : popZeroes s0 ((s0, l0) :: rest) = popZeroes (s0 + l0) rest := by
        simp [popZeroes]
      rw [hstep]
      refine ⟨by omega, hst, hsort, ?_, fun s l => ?_, fun s hs h1 h2 => ?_⟩
      · rw [keys_cons, List.mem_cons, not_or]
        exact ⟨by omega, hnot⟩
      · rw [hfind]
        constructor
        · rintro ⟨hlt, hsl⟩
          exact ⟨hlt, by simp [find?, show s ≠ s0 by omega, hsl]⟩
        · rintro ⟨hlt, hsl⟩
          simp only [find?, show s ≠ s0 by omega, if_false] at hsl
          exact ⟨hlt, hsl⟩
      · rcases Nat.eq_or_lt_of_le h1 with rfl | hlt
        · exact List.mem_cons_self
        · exact List.mem_cons_of_mem _
            (hcov s hs (hl0 ▸ hs0.add_pieceLen_le hp hs hlt) h2)
    · have hstep : popZeroes pos ((s0, l0) :: rest) = (pos, (s0, l0) :: rest) := by
        simp [popZeroes, heq]
      rw [hstep]
      refine ⟨le_rfl, hpos, hsorted, ?_, fun s l => ⟨fun hsl => ⟨?_, hsl⟩, fun h => h.2⟩,
        fun s _ h1 h2 => by omega⟩
      · rw [keys_cons, List.mem_cons, not_or]
        refine ⟨Ne.symm heq, fun h => ?_⟩
        have := hrest.1 pos h
        omega
      have := (hpieces s l hsl).2.2
      have hne : s ≠ pos := by
        rintro rfl
        have hk : s ∈ keys ((s0, l0) :: rest) := mem_keys_of_find? hsl
        rcases List.mem_cons.mp hk with h | h
        · exact heq h.symm
        · have := hrest.1 s h
          omega
      omega

end Loops

/-! ### The prezero bookkeeping -/

section ZeroInv

variable {p w0 : ℕ} {z : PrezeroState}

/-- The prezero bookkeeping of a journal opened at `w0`: `prezero_pos` and `prezeroing_pos` are
starts, in order; every zero request in flight and every parked completion is a piece of
`[prezero_pos, prezeroing_pos)`, the parked ones past `prezero_pos`; and every piece there is in
flight or parked, not both. -/
structure ZeroInv (p w0 : ℕ) (z : PrezeroState) : Prop where
  pos_start : IsStart p w0 z.prezeroPos
  ing_start : IsStart p w0 z.prezeroingPos
  pos_le : z.prezeroPos ≤ z.prezeroingPos
  zeroes_sorted : Sorted z.zeroes
  pending_sorted : Sorted z.pendingZero
  zeroes_piece : ∀ s l, find? z.zeroes s = some l →
    IsStart p w0 s ∧ l = pieceLen p s ∧ z.prezeroPos ≤ s ∧ s < z.prezeroingPos
  pending_piece : ∀ s l, find? z.pendingZero s = some l →
    IsStart p w0 s ∧ l = pieceLen p s ∧ z.prezeroPos < s ∧ s < z.prezeroingPos
  covered : ∀ s, IsStart p w0 s → z.prezeroPos ≤ s → s < z.prezeroingPos →
    s ∈ keys z.zeroes ∨ s ∈ keys z.pendingZero
  apart : ∀ s ∈ keys z.zeroes, s ∉ keys z.pendingZero

theorem zeroInv_init (w0 t0 e0 : ℕ) : ZeroInv p w0 (init w0 t0 e0).zero where
  pos_start := ⟨le_rfl, Or.inl rfl⟩
  ing_start := ⟨le_rfl, Or.inl rfl⟩
  pos_le := le_rfl
  zeroes_sorted := List.Pairwise.nil
  pending_sorted := List.Pairwise.nil
  zeroes_piece _ _ h := by cases h
  pending_piece _ _ h := by cases h
  covered _ _ h1 h2 := by simp only [init] at h1 h2; omega
  apart _ h := by cases h

/-- The invariant does not read `waiting_for_zero_pos`. -/
theorem ZeroInv.waiting (h : ZeroInv p w0 z) (x : ℕ) :
    ZeroInv p w0 { z with waitingForZeroPos := x } :=
  ⟨h.1, h.2, h.3, h.4, h.5, h.6, h.7, h.8, h.9⟩

theorem ZeroInv.key_piece (h : ZeroInv p w0 z) {s : ℕ} (hs : s ∈ keys z.zeroes) :
    IsStart p w0 s ∧ z.prezeroPos ≤ s ∧ s < z.prezeroingPos := by
  obtain ⟨l, hl⟩ := Option.isSome_iff_exists.mp (find?_isSome_of_mem hs)
  obtain ⟨hst, -, h1, h2⟩ := h.zeroes_piece s l hl
  exact ⟨hst, h1, h2⟩

theorem ZeroInv.pending_key_piece (h : ZeroInv p w0 z) {s : ℕ} (hs : s ∈ keys z.pendingZero) :
    IsStart p w0 s ∧ z.prezeroPos < s ∧ s < z.prezeroingPos := by
  obtain ⟨l, hl⟩ := Option.isSome_iff_exists.mp (find?_isSome_of_mem hs)
  obtain ⟨hst, -, h1, h2⟩ := h.pending_piece s l hl
  exact ⟨hst, h1, h2⟩

/-- The piece at `prezero_pos`, if one was issued, is still in flight. -/
theorem ZeroInv.head_inflight (h : ZeroInv p w0 z) (hlt : z.prezeroPos < z.prezeroingPos) :
    z.prezeroPos ∈ keys z.zeroes :=
  (h.covered _ h.pos_start le_rfl hlt).resolve_right fun hk =>
    (lt_irrefl _ (h.pending_key_piece hk).2.1)

/-- `_finish_prezero` of the piece at `prezero_pos`: `prezero_pos` moves past it and past the
parked pieces that follow. -/
theorem ZeroInv.advance (hp : 0 < p) (h : ZeroInv p w0 z) {len : ℕ}
    (hf : find? z.zeroes z.prezeroPos = some len) :
    ZeroInv p w0
      { z with
        zeroes := erase z.zeroes z.prezeroPos
        prezeroPos := (popZeroes (z.prezeroPos + len) z.pendingZero).1
        pendingZero := (popZeroes (z.prezeroPos + len) z.pendingZero).2 } ∧
    z.prezeroPos < (popZeroes (z.prezeroPos + len) z.pendingZero).1 := by
  obtain ⟨hst, rfl, -, hing⟩ := h.zeroes_piece _ _ hf
  have hlen := pieceLen_pos hp z.prezeroPos
  have hend := hst.add_pieceLen_le hp h.ing_start hing
  have hpieces : ∀ s l, find? z.pendingZero s = some l →
      IsStart p w0 s ∧ l = pieceLen p s ∧ z.prezeroPos + pieceLen p z.prezeroPos ≤ s := by
    intro s l hsl
    obtain ⟨hs, hl, hlt, -⟩ := h.pending_piece s l hsl
    exact ⟨hs, hl, hst.add_pieceLen_le hp hs hlt⟩
  obtain ⟨hle, hst', hsort, hnot, hfind, hcov⟩ :=
    popZeroes_spec hp z.pendingZero _ h.pending_sorted (hst.next hp) hpieces
  set e := (popZeroes (z.prezeroPos + pieceLen p z.prezeroPos) z.pendingZero).1
  have hnd := h.zeroes_sorted.nodup
  have hgap : ∀ s, IsStart p w0 s → z.prezeroPos < s → s < e → s ∉ keys z.zeroes :=
    fun s hs hlt hlt' hk => h.apart s hk (hcov s hs (hst.add_pieceLen_le hp hs hlt) hlt')
  have hle_ing : e ≤ z.prezeroingPos := by
    by_contra hgt
    exact (lt_irrefl _ (h.pending_key_piece
      (hcov _ h.ing_start hend (not_le.mp hgt))).2.2)
  refine ⟨⟨hst', h.ing_start, hle_ing, h.zeroes_sorted.erase _, hsort, ?_, ?_, ?_, ?_⟩, by omega⟩
  · intro s l hsl
    have hne : s ≠ z.prezeroPos := fun hs => by
      subst hs
      rw [find?_erase_self hnd] at hsl
      cases hsl
    rw [find?_erase_of_ne _ hne] at hsl
    obtain ⟨hs, hl, hge, hlt⟩ := h.zeroes_piece s l hsl
    dsimp only
    refine ⟨hs, hl, not_lt.mp fun hlt' => hgap s hs (by omega) hlt' (mem_keys_of_find? hsl), hlt⟩
  · intro s l hsl
    obtain ⟨hlt, hsl⟩ := (hfind s l).mp hsl
    obtain ⟨hs, hl, -, hlt'⟩ := h.pending_piece s l hsl
    exact ⟨hs, hl, hlt, hlt'⟩
  · intro s hs hge hlt
    dsimp only at hge hlt ⊢
    rcases h.covered s hs (by omega) hlt with hk | hk
    · exact Or.inl ((mem_keys_erase hnd _ _).mpr ⟨by omega, hk⟩)
    · have hne : s ≠ e := fun heq => hnot (heq ▸ hk)
      obtain ⟨l, hl⟩ := Option.isSome_iff_exists.mp (find?_isSome_of_mem hk)
      exact Or.inr (mem_keys_of_find? ((hfind s l).mpr ⟨by omega, hl⟩))
  · intro s hk hk'
    obtain ⟨l, hl⟩ := Option.isSome_iff_exists.mp (find?_isSome_of_mem hk')
    exact h.apart s ((mem_keys_erase hnd _ _).mp hk).2 (mem_keys_of_find? ((hfind s l).mp hl).2)

/-- `_finish_prezero` of a piece past `prezero_pos`: it is parked in `pending_zero`. -/
theorem ZeroInv.park (h : ZeroInv p w0 z) {start len : ℕ} (hf : find? z.zeroes start = some len)
    (hne : start ≠ z.prezeroPos) :
    ZeroInv p w0
      { z with
        zeroes := erase z.zeroes start
        pendingZero := insert z.pendingZero start len } := by
  obtain ⟨hst, hl, hge, hlt⟩ := h.zeroes_piece _ _ hf
  have hnd := h.zeroes_sorted.nodup
  have hnew : start ∉ keys z.pendingZero := h.apart start (mem_keys_of_find? hf)
  refine ⟨h.pos_start, h.ing_start, h.pos_le, h.zeroes_sorted.erase _,
    h.pending_sorted.insert _ _, ?_, ?_, ?_, ?_⟩
  · intro s l hsl
    have hne' : s ≠ start := fun hs => by
      subst hs
      rw [find?_erase_self hnd] at hsl
      cases hsl
    exact h.zeroes_piece s l (by rwa [find?_erase_of_ne _ hne'] at hsl)
  · intro s l hsl
    rw [insert_eq_set _ hnew, find?_set] at hsl
    split_ifs at hsl with hs
    · cases hsl
      subst hs
      dsimp only
      exact ⟨hst, hl, by omega, hlt⟩
    · exact h.pending_piece s l hsl
  · intro s hs hge' hlt'
    by_cases hs' : s = start
    · exact Or.inr ((mem_keys_insert _ _ _ _).mpr (Or.inl hs'))
    · rcases h.covered s hs hge' hlt' with hk | hk
      · exact Or.inl ((mem_keys_erase hnd _ _).mpr ⟨hs', hk⟩)
      · exact Or.inr ((mem_keys_insert _ _ _ _).mpr (Or.inr hk))
  · intro s hk hk'
    obtain ⟨hs', hk⟩ := (mem_keys_erase hnd _ _).mp hk
    rcases (mem_keys_insert _ _ _ _).mp hk' with heq | hk'
    · exact hs' heq
    · exact h.apart s hk hk'

end ZeroInv

/-! ### The journal's zeroing -/

section Journal

variable {cfg : Config} {j j' : Journaler} {w0 : ℕ}

/-- What `_issue_prezero` can do, past its assertion: nothing, or send the pieces from
`prezeroing_pos` up to a period boundary past it, which becomes `prezeroing_pos`. -/
theorem issuePrezero_cases (hs : issuePrezero cfg j = some j') :
    j.log.flushPos ≤ j.zero.prezeroingPos ∧
    (j' = j ∨ ∃ target, target % cfg.period = 0 ∧ j.zero.prezeroingPos < target ∧
      j' =
        { j with
          zero :=
            { j.zero with
              zeroes := j.zero.zeroes ++ (zeroRequests cfg.period (target - j.zero.prezeroingPos)
                j.zero.prezeroingPos target).1
              prezeroingPos := (zeroRequests cfg.period (target - j.zero.prezeroingPos)
                j.zero.prezeroingPos target).2 } }) := by
  unfold issuePrezero at hs
  dsimp only at hs
  split_ifs at hs with hassert hdone
  · cases hs
    exact ⟨not_lt.mp hassert, Or.inl rfl⟩
  · cases hs
    exact ⟨not_lt.mp hassert, Or.inr ⟨_, Nat.sub_mod_eq_zero_of_mod_eq (Nat.mod_mod _ _).symm,
      not_le.mp hdone, rfl⟩⟩

/-- `_issue_prezero` keeps the bookkeeping; it only adds zero requests in flight. -/
theorem ZeroInv.issuePrezero (h : ZeroInv cfg.period w0 j.zero)
    (hs : issuePrezero cfg j = some j') :
    ZeroInv cfg.period w0 j'.zero ∧ j'.zero.prezeroPos = j.zero.prezeroPos ∧
      j'.zero.waitingForZeroPos = j.zero.waitingForZeroPos ∧ j'.log = j.log := by
  obtain ⟨-, rfl | ⟨target, htgt, hlt, rfl⟩⟩ := issuePrezero_cases hs
  · exact ⟨h, rfl, rfl, rfl⟩
  refine ⟨?_, rfl, rfl, rfl⟩
  obtain ⟨hto, hsorted, hfind⟩ :=
    zeroRequests_spec cfg.period_pos htgt _ _ h.ing_start hlt.le le_rfl
  generalize zeroRequests cfg.period (target - j.zero.prezeroingPos) j.zero.prezeroingPos target = R
    at hto hsorted hfind ⊢
  obtain ⟨R, target'⟩ := R
  dsimp only at hto hsorted hfind ⊢
  subst hto
  have hRkeys : ∀ s ∈ keys R, j.zero.prezeroingPos ≤ s := fun s hk => by
    obtain ⟨l, hl⟩ := Option.isSome_iff_exists.mp (find?_isSome_of_mem hk)
    exact ((hfind s l).mp hl).2.1
  refine ⟨h.pos_start, isStart_of_mod (h.ing_start.1.trans hlt.le) htgt, h.pos_le.trans hlt.le,
    ?_, h.pending_sorted, ?_, ?_, ?_, ?_⟩
  · exact h.zeroes_sorted.append hsorted fun a ha b hb => by
      have := (h.key_piece ha).2.2
      have := hRkeys b hb
      omega
  · intro s l hsl
    dsimp only at hsl ⊢
    rw [find?_append] at hsl
    cases hz : find? j.zero.zeroes s with
    | some l₀ =>
      rw [hz, Option.some_or] at hsl
      obtain rfl : l₀ = l := Option.some.inj hsl
      obtain ⟨hs, hl, hge, hlt'⟩ := h.zeroes_piece s l₀ hz
      exact ⟨hs, hl, hge, by omega⟩
    | none =>
      rw [hz, Option.none_or] at hsl
      obtain ⟨hs, hge, hlt', hl⟩ := (hfind s l).mp hsl
      exact ⟨hs, hl, h.pos_le.trans hge, hlt'⟩
  · intro s l hsl
    obtain ⟨hs, hl, hgt, hlt'⟩ := h.pending_piece s l hsl
    dsimp only
    exact ⟨hs, hl, hgt, by omega⟩
  · intro s hs hge hlt'
    dsimp only at hge hlt' ⊢
    by_cases hold : s < j.zero.prezeroingPos
    · rcases h.covered s hs hge hold with hk | hk
      · exact Or.inl (by simp [hk])
      · exact Or.inr hk
    · exact Or.inl (by
        simp only [keys_append, List.mem_append]
        exact Or.inr (mem_keys_of_find? ((hfind s (pieceLen cfg.period s)).mpr
          ⟨hs, not_lt.mp hold, hlt', rfl⟩)))
  · intro s hk hk'
    simp only [keys_append, List.mem_append] at hk
    rcases hk with hk | hk
    · exact h.apart s hk hk'
    · have := hRkeys s hk
      have := (h.pending_key_piece hk').2.2
      omega

@[simp] theorem WriteState.flushed_flushPos (l : WriteState) (len : ℕ) :
    (l.flushed len).flushPos = l.flushPos + len := rfl

@[simp] theorem WriteState.flushed_writePos (l : WriteState) (len : ℕ) :
    (l.flushed len).writePos = l.writePos := rfl

/-- The write of `_do_flush` and the `_issue_prezero` after it. -/
theorem ZeroInv.issueWrite (h : ZeroInv cfg.period w0 j.zero) {len : ℕ}
    (hs : issueWrite cfg j len = some j') :
    ZeroInv cfg.period w0 j'.zero ∧ j'.zero.prezeroPos = j.zero.prezeroPos ∧
      j'.zero.waitingForZeroPos = j.zero.waitingForZeroPos ∧ j'.log = j.log.flushed len := by
  unfold Lunule.Journaler.issueWrite at hs
  dsimp only at hs
  split_ifs at hs
  exact h.issuePrezero (j := { j with log := j.log.flushed len }) hs

/-- `_do_flush` keeps the bookkeeping and `prezero_pos`, and moves `flush_pos` by the length
asked for, but never past a period below `prezero_pos`. -/
theorem ZeroInv.doFlush (h : ZeroInv cfg.period w0 j.zero)
    (hbuf : j.log.writeBuf = j.log.writePos - j.log.flushPos)
    (hle : j.log.flushPos ≤ j.log.writePos) {amount : ℕ} (hs : doFlush cfg j amount = some j') :
    ZeroInv cfg.period w0 j'.zero ∧ j'.zero.prezeroPos = j.zero.prezeroPos ∧
      j'.log.writePos = j.log.writePos ∧
      (j'.zero.waitingForZeroPos = j.zero.waitingForZeroPos ∨
        j'.zero.waitingForZeroPos ≤ j.log.writePos) ∧
      j'.log.flushPos = max j.log.flushPos (min (j.log.flushPos +
        (if amount ≠ 0 ∧ amount < j.log.writePos - j.log.flushPos then amount
          else j.log.writePos - j.log.flushPos)) (j.zero.prezeroPos - cfg.period)) := by
  unfold Lunule.Journaler.doFlush at hs
  split_ifs at hs with heq hlt hbuf'
  · cases hs
    refine ⟨h, rfl, rfl, Or.inl rfl, ?_⟩
    split_ifs <;> omega
  dsimp only at hs
  generalize hL : (if amount ≠ 0 ∧ amount < j.log.writePos - j.log.flushPos then amount
    else j.log.writePos - j.log.flushPos) = len at hs ⊢
  have hlen : 0 < len ∧ len ≤ j.log.writePos - j.log.flushPos := by
    subst hL
    split_ifs <;> omega
  split_ifs at hs with hzero
  · obtain ⟨j₁, hj₁, hs⟩ := Option.bind_eq_some_iff.mp hs
    obtain ⟨h₁, hpre₁, hwait₁, hlog₁⟩ := h.issuePrezero hj₁
    have hflush₁ : j₁.log.flushPos = j.log.flushPos := by rw [hlog₁]
    have hwrite₁ : j₁.log.writePos = j.log.writePos := by rw [hlog₁]
    split_ifs at hs with hnew hshort
    · cases hs
      exact ⟨h₁.waiting _, hpre₁, hwrite₁, Or.inr (show j₁.log.flushPos + len ≤ _ by omega),
        show j₁.log.flushPos = _ by omega⟩
    · have h₁' : ZeroInv cfg.period w0
          { j₁ with zero := { j₁.zero with waitingForZeroPos := j₁.log.flushPos + len } }.zero :=
        h₁.waiting _
      obtain ⟨h₂, hpre₂, hwait₂, hlog₂⟩ := h₁'.issueWrite hs
      refine ⟨h₂, hpre₂.trans hpre₁, by rw [hlog₂, WriteState.flushed_writePos]; exact hwrite₁,
        Or.inr (by rw [hwait₂]; exact show j₁.log.flushPos + len ≤ _ by omega), ?_⟩
      rw [hlog₂, WriteState.flushed_flushPos]
      exact show j₁.log.flushPos + _ = _ by omega
    · obtain ⟨h₂, hpre₂, hwait₂, hlog₂⟩ := h₁.issueWrite hs
      refine ⟨h₂, hpre₂.trans hpre₁, by rw [hlog₂, WriteState.flushed_writePos, hwrite₁],
        Or.inl (hwait₂.trans hwait₁), ?_⟩
      rw [hlog₂, WriteState.flushed_flushPos, hflush₁]
      omega
  · obtain ⟨h₂, hpre₂, hwait₂, hlog₂⟩ := h.issueWrite hs
    refine ⟨h₂, hpre₂, by rw [hlog₂, WriteState.flushed_writePos], Or.inl hwait₂, ?_⟩
    rw [hlog₂, WriteState.flushed_flushPos]
    omega

/-- `_wait_for_flush` only queues or completes a context. -/
theorem waitForFlush_frame {onsafe : Bool} (hs : waitForFlush j onsafe = some j') :
    j'.zero = j.zero ∧ j'.log.flushPos = j.log.flushPos ∧ j'.log.writePos = j.log.writePos := by
  unfold Lunule.Journaler.waitForFlush at hs
  split_ifs at hs
  · obtain ⟨l', hl', rfl⟩ := Option.map_eq_some_iff.mp hs
    unfold WriteState.waited at hl'
    dsimp only at hl'
    split_ifs at hl' <;> cases hl' <;> exact ⟨rfl, rfl, rfl⟩
  · cases hs
    exact ⟨rfl, rfl, rfl⟩

/-- `_finish_flush` only acknowledges a write. -/
theorem finishFlush_frame {start : ℕ} (hs : finishFlush j start = some j') :
    j'.zero = j.zero ∧ ∃ len, j'.log = j.log.acked start len := by
  unfold Lunule.Journaler.finishFlush at hs
  split at hs
  · cases hs
  · split_ifs at hs
    cases hs
    exact ⟨rfl, _, rfl⟩

/-- The trim only moves the tail. -/
theorem trim_frame {committed : ℕ} (hs : trim cfg j committed = some j') :
    j'.log = j.log ∧ j'.zero = j.zero := by
  unfold Lunule.Journaler.trim at hs
  dsimp only at hs
  split_ifs at hs <;> cases hs <;> exact ⟨rfl, rfl⟩

theorem finishTrim_frame {trimTo : ℕ} (hs : finishTrim j trimTo = some j') :
    j'.log = j.log ∧ j'.zero = j.zero := by
  unfold Lunule.Journaler.finishTrim at hs
  dsimp only at hs
  split_ifs at hs
  cases hs
  exact ⟨rfl, rfl⟩

/-- What `_finish_prezero` can do with a completion for a piece in flight: at `prezero_pos`,
move it and take up a held-back flush; past it, park the piece. -/
theorem finishPrezero_cases {start : ℕ} (hs : finishPrezero cfg j start = some j') :
    ∃ len, find? j.zero.zeroes start = some len ∧
      ((start = j.zero.prezeroPos ∧
        let j₁ : Journaler :=
          { j with
            zero :=
              { j.zero with
                zeroes := erase j.zero.zeroes start
                prezeroPos := (popZeroes (start + len) j.zero.pendingZero).1
                pendingZero := (popZeroes (start + len) j.zero.pendingZero).2 } }
        if j.log.flushPos < j.zero.waitingForZeroPos then
          doFlush cfg j₁ (j.zero.waitingForZeroPos - j.log.flushPos) = some j'
        else j' = j₁) ∨
      (start ≠ j.zero.prezeroPos ∧
        j' =
          { j with
            zero :=
              { j.zero with
                zeroes := erase j.zero.zeroes start
                pendingZero := insert j.zero.pendingZero start len } })) := by
  unfold Lunule.Journaler.finishPrezero at hs
  split at hs
  · cases hs
  · rename_i len hlen
    refine ⟨len, hlen, ?_⟩
    dsimp only at hs
    split_ifs at hs with hstart hwait
    · exact Or.inl ⟨hstart, by rw [if_pos hwait]; exact hs⟩
    · exact Or.inl ⟨hstart, by rw [if_neg hwait]; exact (Option.some.inj hs).symm⟩
    · exact Or.inr ⟨hstart, (Option.some.inj hs).symm⟩

/-- What the zeroing keeps in a journal opened at `w0`: the bookkeeping, the write path a
period below `prezero_pos` once anything was written, and the position a held-back flush
waits for within what was appended. -/
structure PrezeroInv (cfg : Config) (w0 : ℕ) (j : Journaler) : Prop where
  zero : ZeroInv cfg.period w0 j.zero
  flush_ge : w0 ≤ j.log.flushPos
  flush_below : j.log.flushPos = w0 ∨ j.log.flushPos + cfg.period ≤ j.zero.prezeroPos
  waiting_le : j.zero.waitingForZeroPos ≤ j.log.writePos

theorem prezeroInv_init (w0 t0 e0 : ℕ) : PrezeroInv cfg w0 (init w0 t0 e0) :=
  ⟨zeroInv_init w0 t0 e0, le_rfl, Or.inl rfl, Nat.zero_le _⟩

/-- A step that leaves the zeroing, `flush_pos` and `write_pos` alone keeps the invariant. -/
theorem PrezeroInv.frame (h : PrezeroInv cfg w0 j) (hz : j'.zero = j.zero)
    (hflush : j'.log.flushPos = j.log.flushPos) (hwrite : j'.log.writePos = j.log.writePos) :
    PrezeroInv cfg w0 j' := by
  refine ⟨hz ▸ h.zero, hflush ▸ h.flush_ge, ?_, ?_⟩
  · rw [hflush, hz]
    exact h.flush_below
  · rw [hz, hwrite]
    exact h.waiting_le

theorem PrezeroInv.doFlush (hi : Inv w0 j) (h : PrezeroInv cfg w0 j) {amount : ℕ}
    (hs : doFlush cfg j amount = some j') : PrezeroInv cfg w0 j' := by
  obtain ⟨hz, hpre, hwrite, hwait, hflush⟩ :=
    h.zero.doFlush hi.log.pos.buf_eq hi.log.pos.flush_le_write hs
  generalize (if amount ≠ 0 ∧ amount < j.log.writePos - j.log.flushPos then amount
    else j.log.writePos - j.log.flushPos) = len at hflush
  have hge := h.flush_ge
  have hbelow := h.flush_below
  have hwle := h.waiting_le
  refine ⟨hz, by omega, by omega, by omega⟩

theorem PrezeroInv.appendEntry (hi : Inv w0 j) (h : PrezeroInv cfg w0 j) {wrote : ℕ}
    (hs : appendEntry cfg j wrote = some j') : PrezeroInv cfg w0 j' := by
  have hi₁ : Inv w0 { j with log := j.log.appended wrote } :=
    ⟨hi.log.appended wrote, hi.trimmed_le⟩
  have h₁ : PrezeroInv cfg w0 { j with log := j.log.appended wrote } :=
    ⟨h.zero, h.flush_ge, h.flush_below, le_trans h.waiting_le (Nat.le_add_right _ _)⟩
  unfold Lunule.Journaler.appendEntry at hs
  dsimp only at hs
  split_ifs at hs
  · obtain ⟨j₂, hj₂, rfl⟩ := Option.map_eq_some_iff.mp hs
    have h₂ := h₁.doFlush hi₁ hj₂
    split_ifs
    · exact h₂.frame rfl rfl rfl
    · exact h₂
  · cases hs
    exact h₁

theorem PrezeroInv.flush (hi : Inv w0 j) (h : PrezeroInv cfg w0 j) {onsafe : Bool}
    (hs : flush cfg j onsafe = some j') : PrezeroInv cfg w0 j' := by
  unfold Lunule.Journaler.flush at hs
  split_ifs at hs
  · cases hs
    exact h.frame rfl rfl rfl
  · cases hs
    exact h
  · obtain ⟨j₁, hj₁, hs⟩ := Option.bind_eq_some_iff.mp hs
    obtain ⟨hz, hf, hw⟩ := waitForFlush_frame hs
    exact (h.doFlush hi hj₁).frame hz hf hw

theorem PrezeroInv.finishPrezero (hi : Inv w0 j) (h : PrezeroInv cfg w0 j) {start : ℕ}
    (hs : finishPrezero cfg j start = some j') : PrezeroInv cfg w0 j' := by
  obtain ⟨len, hlen, ⟨rfl, hs⟩ | ⟨hne, rfl⟩⟩ := finishPrezero_cases hs
  · obtain ⟨hz, hlt⟩ := h.zero.advance cfg.period_pos hlen
    have hbelow := h.flush_below
    have h₁ : PrezeroInv cfg w0
        { j with
          zero :=
            { j.zero with
              zeroes := erase j.zero.zeroes j.zero.prezeroPos
              prezeroPos := (popZeroes (j.zero.prezeroPos + len) j.zero.pendingZero).1
              pendingZero := (popZeroes (j.zero.prezeroPos + len) j.zero.pendingZero).2 } } :=
      ⟨hz, h.flush_ge, by dsimp only; omega, h.waiting_le⟩
    dsimp only at hs
    split_ifs at hs
    · exact h₁.doFlush (hi.zero _) hs
    · exact hs ▸ h₁
  · exact ⟨h.zero.park hlen hne, h.flush_ge, h.flush_below, h.waiting_le⟩

/-- Every step keeps the invariant. -/
theorem PrezeroInv.step (hi : Inv w0 j) (h : PrezeroInv cfg w0 j) {e : Event}
    (hs : step cfg j e = some j') : PrezeroInv cfg w0 j' := by
  cases e with
  | appendEntry wrote => exact h.appendEntry hi hs
  | flush onsafe => exact h.flush hi hs
  | waitForFlush onsafe =>
    obtain ⟨hz, hf, hw⟩ := waitForFlush_frame hs
    exact h.frame hz hf hw
  | finishFlush start =>
    obtain ⟨hz, len, hl⟩ := finishFlush_frame hs
    exact h.frame hz (by rw [hl]; rfl) (by rw [hl]; rfl)
  | finishPrezero start => exact h.finishPrezero hi hs
  | trim committed =>
    obtain ⟨hl, hz⟩ := trim_frame hs
    exact h.frame hz (by rw [hl]) (by rw [hl])
  | finishTrim trimTo =>
    obtain ⟨hl, hz⟩ := finishTrim_frame hs
    exact h.frame hz (by rw [hl]) (by rw [hl])
  | setExpirePos ep =>
    cases hs
    exact h.frame rfl rfl rfl
  | setTrimmedPos q =>
    cases hs
    exact h.frame rfl rfl rfl

theorem prezeroInv_run {t0 e0 : ℕ} {es : List Event}
    (hrun : run (step cfg) (init w0 t0 e0) es = some j) : Inv w0 j ∧ PrezeroInv cfg w0 j :=
  run_invariant (step cfg) (fun j => Inv w0 j ∧ PrezeroInv cfg w0 j)
    (fun _ _ _ h hs => ⟨(h.1.step hs).1, h.2.step h.1 hs⟩) es _ _
    ⟨inv_init w0 t0 e0, prezeroInv_init w0 t0 e0⟩ hrun

/-- A flush held back for the zeroing is taken up when `prezero_pos` moves: `flush_pos` goes to
`waiting_for_zero_pos`, or to a period below the new `prezero_pos` if that is nearer. -/
theorem finishPrezero_resumes (hi : Inv w0 j) (h : PrezeroInv cfg w0 j) {start : ℕ}
    (hs : finishPrezero cfg j start = some j') (hmove : j.zero.prezeroPos < j'.zero.prezeroPos)
    (hwait : j.log.flushPos < j.zero.waitingForZeroPos) :
    j'.log.flushPos =
      max j.log.flushPos (min j.zero.waitingForZeroPos (j'.zero.prezeroPos - cfg.period)) := by
  obtain ⟨len, hlen, ⟨rfl, hs⟩ | ⟨-, rfl⟩⟩ := finishPrezero_cases hs
  · dsimp only at hs
    rw [if_pos hwait] at hs
    obtain ⟨-, hpre, -, -, hflush⟩ := (h.zero.advance cfg.period_pos hlen).1.doFlush
      (by exact hi.log.pos.buf_eq) (by exact hi.log.pos.flush_le_write) hs
    have hwle := h.waiting_le
    rw [hpre]
    rw [hflush]
    dsimp only
    split_ifs <;> omega
  · exact absurd hmove (lt_irrefl _)

/-! ### What the run's completions account for -/

/-- The starts of the zero requests whose completion a run delivered, in order. -/
def zeroCompletions (es : List Event) : List ℕ :=
  es.filterMap fun e =>
    match e with
    | .finishPrezero s => some s
    | _ => none

theorem zeroCompletions_append (es fs : List Event) :
    zeroCompletions (es ++ fs) = zeroCompletions es ++ zeroCompletions fs :=
  List.filterMap_append

theorem zeroCompletions_eq_nil {e : Event} (he : ∀ s, e ≠ .finishPrezero s) :
    zeroCompletions [e] = [] := by
  cases e <;> simp_all [zeroCompletions]

/-- A change of the bookkeeping that only sends zero requests: the new ones start at or past
`prezeroing_pos`, which does not move back, and the rest stays. -/
structure AddsZeroes (z z' : PrezeroState) : Prop where
  zeroes_eq : ∃ R, z'.zeroes = z.zeroes ++ R ∧ ∀ s ∈ keys R, z.prezeroingPos ≤ s
  ing_le : z.prezeroingPos ≤ z'.prezeroingPos
  pending_eq : z'.pendingZero = z.pendingZero
  pos_eq : z'.prezeroPos = z.prezeroPos

theorem AddsZeroes.refl (z : PrezeroState) : AddsZeroes z z :=
  ⟨⟨[], by rw [List.append_nil], fun _ h => absurd h List.not_mem_nil⟩, le_rfl, rfl, rfl⟩

theorem AddsZeroes.trans {z z' z'' : PrezeroState} (h : AddsZeroes z z') (h' : AddsZeroes z' z'') :
    AddsZeroes z z'' := by
  obtain ⟨R, hR, hRk⟩ := h.zeroes_eq
  obtain ⟨R', hR', hRk'⟩ := h'.zeroes_eq
  refine ⟨⟨R ++ R', by rw [hR', hR, List.append_assoc], fun s hs => ?_⟩,
    h.ing_le.trans h'.ing_le, h'.pending_eq.trans h.pending_eq, h'.pos_eq.trans h.pos_eq⟩
  rcases List.mem_append.mp (keys_append R R' ▸ hs) with hs | hs
  · exact hRk s hs
  · exact h.ing_le.trans (hRk' s hs)

/-- Setting `waiting_for_zero_pos` sends nothing. -/
theorem AddsZeroes.waiting {z z' : PrezeroState} (h : AddsZeroes z z') (x : ℕ) :
    AddsZeroes z { z' with waitingForZeroPos := x } :=
  ⟨h.zeroes_eq, h.ing_le, h.pending_eq, h.pos_eq⟩

theorem addsZeroes_issuePrezero (h : ZeroInv cfg.period w0 j.zero)
    (hs : issuePrezero cfg j = some j') : AddsZeroes j.zero j'.zero := by
  obtain ⟨-, rfl | ⟨target, htgt, hlt, rfl⟩⟩ := issuePrezero_cases hs
  · exact .refl _
  obtain ⟨hto, -, hfind⟩ :=
    zeroRequests_spec cfg.period_pos htgt _ _ h.ing_start hlt.le le_rfl
  refine ⟨⟨_, rfl, fun s hs => ?_⟩, by dsimp only; omega, rfl, rfl⟩
  obtain ⟨l, hl⟩ := Option.isSome_iff_exists.mp (find?_isSome_of_mem hs)
  exact ((hfind s l).mp hl).2.1

theorem addsZeroes_issueWrite (h : ZeroInv cfg.period w0 j.zero) {len : ℕ}
    (hs : issueWrite cfg j len = some j') : AddsZeroes j.zero j'.zero := by
  unfold Lunule.Journaler.issueWrite at hs
  dsimp only at hs
  split_ifs at hs
  exact addsZeroes_issuePrezero (j := { j with log := j.log.flushed len }) h hs

theorem addsZeroes_doFlush (h : ZeroInv cfg.period w0 j.zero) {amount : ℕ}
    (hs : doFlush cfg j amount = some j') : AddsZeroes j.zero j'.zero := by
  unfold Lunule.Journaler.doFlush at hs
  split_ifs at hs
  · cases hs
    exact .refl _
  dsimp only at hs
  generalize (if amount ≠ 0 ∧ amount < j.log.writePos - j.log.flushPos then amount
    else j.log.writePos - j.log.flushPos) = len at hs
  split_ifs at hs
  · obtain ⟨j₁, hj₁, hs⟩ := Option.bind_eq_some_iff.mp hs
    have ha₁ := addsZeroes_issuePrezero h hj₁
    have h₁ := (h.issuePrezero hj₁).1
    split_ifs at hs
    · cases hs
      exact ha₁.waiting _
    · exact (ha₁.waiting _).trans (addsZeroes_issueWrite
        (j := { j₁ with zero := { j₁.zero with waitingForZeroPos := j₁.log.flushPos + len } })
        (h₁.waiting _) hs)
    · exact ha₁.trans (addsZeroes_issueWrite h₁ hs)
  · exact addsZeroes_issueWrite h hs

theorem addsZeroes_appendEntry (h : ZeroInv cfg.period w0 j.zero) {wrote : ℕ}
    (hs : appendEntry cfg j wrote = some j') : AddsZeroes j.zero j'.zero := by
  unfold Lunule.Journaler.appendEntry at hs
  dsimp only at hs
  split_ifs at hs
  · obtain ⟨j₂, hj₂, rfl⟩ := Option.map_eq_some_iff.mp hs
    have ha : AddsZeroes j.zero j₂.zero :=
      addsZeroes_doFlush (j := { j with log := j.log.appended wrote }) h hj₂
    split_ifs
    · exact ha
    · exact ha
  · cases hs
    exact .refl _

theorem addsZeroes_flush (h : ZeroInv cfg.period w0 j.zero) {onsafe : Bool}
    (hs : flush cfg j onsafe = some j') : AddsZeroes j.zero j'.zero := by
  unfold Lunule.Journaler.flush at hs
  split_ifs at hs
  · cases hs
    exact .refl _
  · cases hs
    exact .refl _
  · obtain ⟨j₁, hj₁, hs⟩ := Option.bind_eq_some_iff.mp hs
    rw [(waitForFlush_frame hs).1]
    exact addsZeroes_doFlush h hj₁

/-- The zero requests a run's completions `done` account for: each completion is of an issued
piece that is no longer in flight, and each issued piece no longer in flight has completed. -/
structure Tracked (p w0 : ℕ) (done : List ℕ) (z : PrezeroState) : Prop where
  done_issued : ∀ s ∈ done, IsStart p w0 s ∧ s < z.prezeroingPos ∧ s ∉ keys z.zeroes
  done_of_landed : ∀ s, IsStart p w0 s → s < z.prezeroingPos → s ∉ keys z.zeroes → s ∈ done

theorem tracked_init (w0 t0 e0 : ℕ) : Tracked cfg.period w0 [] (init w0 t0 e0).zero :=
  ⟨fun _ h => absurd h List.not_mem_nil, fun _ hs hlt _ => absurd hs.1 (not_le.mpr hlt)⟩

/-- Sending zero requests keeps the account: the new pieces are all in flight. -/
theorem Tracked.adds {D : List ℕ} {z z' : PrezeroState} (ht : Tracked cfg.period w0 D z)
    (h : ZeroInv cfg.period w0 z) (h' : ZeroInv cfg.period w0 z') (ha : AddsZeroes z z') :
    Tracked cfg.period w0 D z' := by
  obtain ⟨R, hR, hRk⟩ := ha.zeroes_eq
  have hkeys : ∀ s, s ∈ keys z'.zeroes ↔ s ∈ keys z.zeroes ∨ s ∈ keys R := by
    intro s
    rw [hR, keys_append, List.mem_append]
  refine ⟨fun s hs => ?_, fun s hs hlt hnot => ?_⟩
  · obtain ⟨hst, hlt, hnot⟩ := ht.done_issued s hs
    refine ⟨hst, lt_of_lt_of_le hlt ha.ing_le, fun hk => ?_⟩
    rcases (hkeys s).mp hk with hk | hk
    · exact hnot hk
    · exact absurd (hRk s hk) (not_le.mpr hlt)
  · by_cases hold : s < z.prezeroingPos
    · exact ht.done_of_landed s hs hold fun hk => hnot ((hkeys s).mpr (Or.inl hk))
    · have hpos : z'.prezeroPos ≤ s := by
        rw [ha.pos_eq]
        exact h.pos_le.trans (not_lt.mp hold)
      rcases h'.covered s hs hpos hlt with hk | hk
      · exact absurd hk hnot
      · rw [ha.pending_eq] at hk
        exact absurd (h.pending_key_piece hk).2.2 hold

/-- Completing a piece in flight adds it to the account. -/
theorem Tracked.complete {D : List ℕ} {z : PrezeroState} (ht : Tracked cfg.period w0 D z)
    (h : ZeroInv cfg.period w0 z) {start len : ℕ} (hf : find? z.zeroes start = some len)
    (z₁ : PrezeroState) (hz₁ : z₁.zeroes = erase z.zeroes start)
    (hing : z₁.prezeroingPos = z.prezeroingPos) :
    Tracked cfg.period w0 (D ++ [start]) z₁ := by
  have hmem : ∀ s, s ∈ keys z₁.zeroes ↔ s ≠ start ∧ s ∈ keys z.zeroes := by
    intro s
    rw [hz₁]
    exact mem_keys_erase h.zeroes_sorted.nodup start s
  refine ⟨fun s hs => ?_, fun s hs hlt hnot => ?_⟩
  · rw [hing, hmem]
    rcases List.mem_append.mp hs with hs | hs
    · obtain ⟨hst, hlt, hnot⟩ := ht.done_issued s hs
      exact ⟨hst, hlt, fun hk => hnot hk.2⟩
    · obtain rfl := List.mem_singleton.mp hs
      obtain ⟨hst, -, -, hlt⟩ := h.zeroes_piece s len hf
      exact ⟨hst, hlt, fun hk => hk.1 rfl⟩
  · rw [hing] at hlt
    rw [hmem] at hnot
    by_cases hs' : s = start
    · exact List.mem_append_right _ (List.mem_singleton.mpr hs')
    · exact List.mem_append_left _ (ht.done_of_landed s hs hlt fun hk => hnot ⟨hs', hk⟩)

theorem Tracked.finishPrezero {D : List ℕ} (hi : Inv w0 j) (h : PrezeroInv cfg w0 j)
    (ht : Tracked cfg.period w0 D j.zero) {start : ℕ} (hs : finishPrezero cfg j start = some j') :
    Tracked cfg.period w0 (D ++ [start]) j'.zero := by
  have h' := h.finishPrezero hi hs
  obtain ⟨len, hlen, ⟨rfl, hs⟩ | ⟨hne, rfl⟩⟩ := finishPrezero_cases hs
  · have ht₁ := ht.complete h.zero hlen
      { j.zero with
        zeroes := erase j.zero.zeroes j.zero.prezeroPos
        prezeroPos := (popZeroes (j.zero.prezeroPos + len) j.zero.pendingZero).1
        pendingZero := (popZeroes (j.zero.prezeroPos + len) j.zero.pendingZero).2 } rfl rfl
    have h₁ := (h.zero.advance cfg.period_pos hlen).1
    dsimp only at hs
    split_ifs at hs
    · exact ht₁.adds h₁ h'.zero (addsZeroes_doFlush h₁ hs)
    · subst hs
      exact ht₁
  · exact ht.complete h.zero hlen _ rfl rfl

/-- A step that completes no zero request keeps the account as it is. -/
theorem Tracked.quiet {D : List ℕ} (hi : Inv w0 j) (h : PrezeroInv cfg w0 j)
    (ht : Tracked cfg.period w0 D j.zero) {e : Event} (hs : step cfg j e = some j')
    (he : ∀ s, e ≠ .finishPrezero s) : Tracked cfg.period w0 D j'.zero := by
  have h' := h.step hi hs
  cases e with
  | finishPrezero start => exact absurd rfl (he start)
  | appendEntry wrote => exact ht.adds h.zero h'.zero (addsZeroes_appendEntry h.zero hs)
  | flush onsafe => exact ht.adds h.zero h'.zero (addsZeroes_flush h.zero hs)
  | waitForFlush onsafe =>
    rw [(waitForFlush_frame hs).1]
    exact ht
  | finishFlush start =>
    rw [(finishFlush_frame hs).1]
    exact ht
  | trim committed =>
    rw [(trim_frame hs).2]
    exact ht
  | finishTrim trimTo =>
    rw [(finishTrim_frame hs).2]
    exact ht
  | setExpirePos ep =>
    cases hs
    exact ht
  | setTrimmedPos q =>
    cases hs
    exact ht

/-- Every step keeps the account, with the completion it delivers. -/
theorem Tracked.step {D : List ℕ} (hi : Inv w0 j) (h : PrezeroInv cfg w0 j)
    (ht : Tracked cfg.period w0 D j.zero) {e : Event} (hs : step cfg j e = some j') :
    Tracked cfg.period w0 (D ++ zeroCompletions [e]) j'.zero := by
  by_cases hf : ∃ s, e = .finishPrezero s
  · obtain ⟨start, rfl⟩ := hf
    exact ht.finishPrezero hi h hs
  · rw [zeroCompletions_eq_nil fun s he => hf ⟨s, he⟩, List.append_nil]
    exact ht.quiet hi h hs fun s he => hf ⟨s, he⟩

/-- Over every run, the bookkeeping accounts for the completions the run delivered. The
induction is on the run from its end. -/
theorem tracked_run {t0 e0 : ℕ} {es : List Event}
    (hrun : run (step cfg) (init w0 t0 e0) es = some j) :
    Inv w0 j ∧ PrezeroInv cfg w0 j ∧ Tracked cfg.period w0 (zeroCompletions es) j.zero := by
  induction es using List.reverseRecOn generalizing j with
  | nil =>
    cases hrun
    exact ⟨inv_init w0 t0 e0, prezeroInv_init w0 t0 e0, tracked_init w0 t0 e0⟩
  | append_singleton es e ih =>
    rw [run_append] at hrun
    obtain ⟨j₀, hj₀, hs⟩ := Option.bind_eq_some_iff.mp hrun
    obtain ⟨hi, h, ht⟩ := ih hj₀
    have hs' : step cfg j₀ e = some j := by
      rw [run_cons] at hs
      obtain ⟨j₁, hj₁, hj⟩ := Option.bind_eq_some_iff.mp hs
      rw [run_nil, Option.some.injEq] at hj
      exact hj ▸ hj₁
    rw [zeroCompletions_append]
    exact ⟨(hi.step hs').1, h.step hi hs', ht.step hi h hs'⟩

/-- A completion at `prezero_pos` moves it on, and takes up a held-back flush as far as the
zeroing allows. -/
theorem finishPrezero_head (hi : Inv w0 j) (h : PrezeroInv cfg w0 j)
    (hs : finishPrezero cfg j j.zero.prezeroPos = some j') :
    j.zero.prezeroPos < j'.zero.prezeroPos ∧
      (j.log.flushPos < j.zero.waitingForZeroPos → j'.log.flushPos =
        max j.log.flushPos (min j.zero.waitingForZeroPos (j'.zero.prezeroPos - cfg.period))) := by
  have hmove : j.zero.prezeroPos < j'.zero.prezeroPos := by
    obtain ⟨len, hlen, ⟨-, hs'⟩ | ⟨hne, -⟩⟩ := finishPrezero_cases hs
    · have hadv := h.zero.advance cfg.period_pos hlen
      dsimp only at hs'
      split_ifs at hs'
      · rw [(hadv.1.doFlush (by exact hi.log.pos.buf_eq) (by exact hi.log.pos.flush_le_write)
          hs').2.1]
        exact hadv.2
      · subst hs'
        exact hadv.2
    · exact absurd rfl hne
  exact ⟨hmove, finishPrezero_resumes hi h hs hmove⟩

/-- Over every run, whatever order the zero requests complete in: `prezero_pos` ends the longest
run of issued pieces from `w0` whose completions the run delivered (every piece before it
completed, the piece at it not, and every completion is of a piece issued below
`prezeroing_pos`), `prezero_pos ≤ prezeroing_pos`; what was handed to the write path ends a period
below `prezero_pos`; and a completion at `prezero_pos` moves it on and takes up a held-back
flush as far as the zeroing allows. -/
theorem prezero_sound {t0 e0 : ℕ} {es : List Event}
    (hrun : run (step cfg) (init w0 t0 e0) es = some j) :
    IsStart cfg.period w0 j.zero.prezeroPos ∧
      (∀ s, IsStart cfg.period w0 s → s < j.zero.prezeroPos → s ∈ zeroCompletions es) ∧
      (j.zero.prezeroPos < j.zero.prezeroingPos → j.zero.prezeroPos ∉ zeroCompletions es) ∧
      (∀ s ∈ zeroCompletions es, IsStart cfg.period w0 s ∧ s < j.zero.prezeroingPos) ∧
      j.zero.prezeroPos ≤ j.zero.prezeroingPos ∧
      (j.log.flushPos = w0 ∨ j.log.flushPos + cfg.period ≤ j.zero.prezeroPos) ∧
      ∀ j', finishPrezero cfg j j.zero.prezeroPos = some j' →
        j.zero.prezeroPos < j'.zero.prezeroPos ∧
        (j.log.flushPos < j.zero.waitingForZeroPos → j'.log.flushPos =
          max j.log.flushPos (min j.zero.waitingForZeroPos (j'.zero.prezeroPos - cfg.period))) := by
  obtain ⟨hi, h, ht⟩ := tracked_run hrun
  have hz := h.zero
  refine ⟨hz.pos_start, fun s hs hlt => ?_, fun hlt hk => ?_,
    fun s hs => ⟨(ht.done_issued s hs).1, (ht.done_issued s hs).2.1⟩, hz.pos_le, h.flush_below,
    fun j' hs => finishPrezero_head hi h hs⟩
  · exact ht.done_of_landed s hs (lt_of_lt_of_le hlt hz.pos_le)
      fun hk => absurd (hz.key_piece hk).2.1 (not_le.mpr hlt)
  · exact (ht.done_issued _ hk).2.2 (hz.head_inflight hlt)

end Journal

/-- An entry of 40 bytes on 16-byte periods, whose flush waits for the zeroing, and the first
three zero requests completed out of order: the flush is taken up twice. -/
def heldBackFlush : List Event :=
  [.appendEntry 40, .finishPrezero 16, .finishPrezero 0, .finishPrezero 32]

theorem heldBackFlush_sound : ∃ j, run (step smallLayout) (init 0 0 0) heldBackFlush = some j ∧
    IsStart smallLayout.period 0 j.zero.prezeroPos ∧
      (∀ s, IsStart smallLayout.period 0 s → s < j.zero.prezeroPos →
        s ∈ zeroCompletions heldBackFlush) ∧
      (j.zero.prezeroPos < j.zero.prezeroingPos →
        j.zero.prezeroPos ∉ zeroCompletions heldBackFlush) ∧
      (∀ s ∈ zeroCompletions heldBackFlush,
        IsStart smallLayout.period 0 s ∧ s < j.zero.prezeroingPos) ∧
      j.zero.prezeroPos ≤ j.zero.prezeroingPos ∧
      (j.log.flushPos = 0 ∨ j.log.flushPos + smallLayout.period ≤ j.zero.prezeroPos) ∧
      ∀ j', finishPrezero smallLayout j j.zero.prezeroPos = some j' →
        j.zero.prezeroPos < j'.zero.prezeroPos ∧
        (j.log.flushPos < j.zero.waitingForZeroPos → j'.log.flushPos =
          max j.log.flushPos
            (min j.zero.waitingForZeroPos (j'.zero.prezeroPos - smallLayout.period))) := by
  obtain ⟨j, hj⟩ : ∃ j, run (step smallLayout) (init 0 0 0) heldBackFlush = some j := ⟨_, rfl⟩
  exact ⟨j, hj, prezero_sound hj⟩

end Lunule.Journaler
