import Mathlib.Logic.Basic
import Mathlib.Data.Nat.Notation

/-!
Runs of a partial step function. A system is a step `exec : σ → ε → Option σ`
that answers `none` when an event cannot happen; a run feeds it a list of events
from a start state. An invariant that holds at the start and that every step
keeps holds after every run, an invariant under which every step can be taken carries
a run to its end, and a run splits at any point of its event list.
-/

namespace Runs

variable {σ ε : Type}

/-- Feed the events to `exec` one after another; `none` as soon as one cannot happen. -/
def run (exec : σ → ε → Option σ) (s : σ) : List ε → Option σ
  | [] => some s
  | e :: es => (exec s e).bind fun s' => run exec s' es

@[simp] theorem run_nil (exec : σ → ε → Option σ) (s : σ) : run exec s [] = some s := rfl

theorem run_cons (exec : σ → ε → Option σ) (s : σ) (e : ε) (es : List ε) :
    run exec s (e :: es) = (exec s e).bind fun s' => run exec s' es := rfl

theorem run_append (exec : σ → ε → Option σ) (s : σ) (es fs : List ε) :
    run exec s (es ++ fs) = (run exec s es).bind fun s' => run exec s' fs := by
  induction es generalizing s with
  | nil => rfl
  | cons e es ih =>
    simp only [List.cons_append, run_cons]
    cases exec s e with
    | none => rfl
    | some s' => exact ih s'

/-- A run is the monadic left fold of the step in `Option`: a loop of the source that
may fail at each pass is a run of its body. -/
theorem run_eq_foldlM (exec : σ → ε → Option σ) (s : σ) (es : List ε) :
    run exec s es = es.foldlM exec s := by
  induction es generalizing s with
  | nil => rfl
  | cons e es ih =>
    rw [run_cons, List.foldlM_cons]
    cases exec s e with
    | none => rfl
    | some s' => exact ih s'

/-- States some run reaches from `s₀`. -/
def Reachable (exec : σ → ε → Option σ) (s₀ s : σ) : Prop := ∃ es, run exec s₀ es = some s

/-- The invariant rule: what the start satisfies and every step keeps holds after every run. -/
theorem run_invariant (exec : σ → ε → Option σ) (P : σ → Prop)
    (hstep : ∀ s e s', P s → exec s e = some s' → P s') :
    ∀ (es : List ε) (s s' : σ), P s → run exec s es = some s' → P s' := by
  intro es
  induction es with
  | nil =>
    intro s s' hs hrun
    cases hrun
    exact hs
  | cons e es ih =>
    intro s s' hs hrun
    rw [run_cons] at hrun
    cases hexec : exec s e with
    | none => rw [hexec] at hrun; cases hrun
    | some t =>
      rw [hexec] at hrun
      exact ih t s' (hstep s e t hs hexec) hrun

/-- The progress rule: an invariant of the state and of the events still to come that
every step keeps, and under which every step can be taken, carries a run to its end. -/
theorem run_progress (exec : σ → ε → Option σ) (I : σ → List ε → Prop)
    (hstep : ∀ s e es, I s (e :: es) → ∃ s', exec s e = some s' ∧ I s' es) :
    ∀ (es : List ε) (s : σ), I s es → ∃ s', run exec s es = some s' ∧ I s' [] := by
  intro es
  induction es with
  | nil => exact fun s hs => ⟨s, rfl, hs⟩
  | cons e es ih =>
    intro s hs
    obtain ⟨t, hexec, ht⟩ := hstep s e es hs
    rw [run_cons, hexec]
    exact ih t ht

/-- The invariant rule for runs whose events all satisfy `Q`: an invariant that every
such step keeps. -/
theorem run_invariant_of_forall (exec : σ → ε → Option σ) (P : σ → Prop) (Q : ε → Prop)
    (hstep : ∀ s e s', P s → Q e → exec s e = some s' → P s') :
    ∀ (es : List ε) (s s' : σ), P s → (∀ e ∈ es, Q e) → run exec s es = some s' → P s' := by
  intro es
  induction es with
  | nil =>
    intro s s' hs _ hrun
    cases hrun
    exact hs
  | cons e es ih =>
    intro s s' hs hq hrun
    rw [run_cons] at hrun
    cases hexec : exec s e with
    | none => rw [hexec] at hrun; cases hrun
    | some t =>
      rw [hexec] at hrun
      exact ih t s' (hstep s e t hs (hq e List.mem_cons_self) hexec)
        (fun e' he' => hq e' (List.mem_cons_of_mem _ he')) hrun

/-- The invariant rule for a system with a fixed-width counter: the measure `μ` counts
the `p`-events, and the steps keep `P` only while the count stays below `B` and only
for events that satisfy `Q`. -/
theorem run_invariant_counted (exec : σ → ε → Option σ) (P : σ → Prop) (Q : ε → Prop)
    (p : ε → Bool) (μ : σ → ℕ) (B : ℕ)
    (hstep : ∀ s e s', P s → Q e → μ s + (if p e then 1 else 0) < B → exec s e = some s' →
      P s' ∧ μ s' = μ s + if p e then 1 else 0) :
    ∀ (es : List ε) (s s' : σ), P s → (∀ e ∈ es, Q e) → μ s + es.countP p < B →
      run exec s es = some s' → P s' := by
  intro es
  induction es with
  | nil =>
    intro s s' hs _ _ hrun
    cases hrun
    exact hs
  | cons e es ih =>
    intro s s' hs hq hcount hrun
    rw [run_cons] at hrun
    rw [List.countP_cons] at hcount
    cases hexec : exec s e with
    | none => rw [hexec] at hrun; cases hrun
    | some t =>
      rw [hexec] at hrun
      have hnext := hstep s e t hs (hq e List.mem_cons_self) (by omega) hexec
      refine ih t s' hnext.1 (fun e' he' => hq e' (List.mem_cons_of_mem _ he')) ?_ hrun
      rw [hnext.2]
      omega

/-- A run whose every event meets `G` in the state it is fed in. -/
def Guarded (G : σ → ε → Prop) (exec : σ → ε → Option σ) : σ → List ε → Prop
  | _, [] => True
  | s, e :: es => G s e ∧ ∀ s', exec s e = some s' → Guarded G exec s' es

/-- The invariant rule for guarded runs: an invariant that every step keeps when its event
meets the guard in the state before it. -/
theorem run_invariant_guarded (exec : σ → ε → Option σ) (G : σ → ε → Prop) (P : σ → Prop)
    (hstep : ∀ s e s', P s → G s e → exec s e = some s' → P s') :
    ∀ (es : List ε) (s s' : σ), P s → Guarded G exec s es → run exec s es = some s' → P s' := by
  intro es
  induction es with
  | nil =>
    intro s s' hs _ hrun
    cases hrun
    exact hs
  | cons e es ih =>
    intro s s' hs hg hrun
    rw [run_cons] at hrun
    cases hexec : exec s e with
    | none => rw [hexec] at hrun; cases hrun
    | some t =>
      rw [hexec] at hrun
      exact ih t s' (hstep s e t hs hg.1 hexec) (hg.2 t hexec) hrun

theorem Reachable.invariant {exec : σ → ε → Option σ} {P : σ → Prop} {s₀ s : σ}
    (hr : Reachable exec s₀ s) (h₀ : P s₀)
    (hstep : ∀ s e s', P s → exec s e = some s' → P s') : P s := by
  obtain ⟨es, hrun⟩ := hr
  exact run_invariant exec P hstep es s₀ s h₀ hrun

theorem Reachable.step {exec : σ → ε → Option σ} {s₀ s s' : σ} {e : ε}
    (hr : Reachable exec s₀ s) (he : exec s e = some s') : Reachable exec s₀ s' := by
  obtain ⟨es, hrun⟩ := hr
  refine ⟨es ++ [e], ?_⟩
  rw [run_append, hrun]
  simp [run_cons, he]

end Runs
