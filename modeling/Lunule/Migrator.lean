import Lunule.OrdMap
import Lunule.Runs
import Lunule.IfBeat

/-!
The export side of the `Migrator` as far as `export_queue` is concerned. The balancer asks
for an export with `export_dir_nicely`, which queues the pair and lets
`maybe_do_queued_export` start exports from the front while at most four run. An export
moves through its phases on the peers' acks; when its tree is frozen, `export_frozen` takes
its locks, and if the inode's filelock cannot be wrlocked it parks a context on the
filelock: under `mds_bal_migmode = 2` one that calls `export_frozen` again, under
`mds_bal_migmode = 1` one that cancels and retries with `export_dir_nicely(ex, tid)`.
`export_finish` queues the residual dirs split off by `check_export_size` towards the same
peer.

What the rest of the MDS answers (the cache, the locks, the MDS map) is an `Env` passed with
each event. `C_MDC_Retry_Export` hands its `uint64_t` tid to a `mds_rank_t` parameter, so
the retry goes to the rank whose number is the tid.
-/

namespace Lunule.Migrator

/-- `dirfrag_t`, by an identifier. -/
abbrev Dirfrag := ℕ

/-- `mds_rank_t`. -/
abbrev MdsRank := ℤ

/-- `export_state_t::state`. -/
inductive ExportPhase
  | locking | discovering | freezing | prepping | warning | exporting
  | loggingfinish | notifying | cancelling
  deriving DecidableEq, Repr

/-- `export_state_t`, with the fields the queue depends on. -/
structure ExportState where
  state : ExportPhase
  peer : MdsRank
  tid : ℕ
  residualDirs : List Dirfrag
  deriving DecidableEq, Repr

/-- The contexts `export_frozen` parks on the inode's filelock. -/
inductive Waiter
  | exportWaitWrlock (ex : Dirfrag) (tid : ℕ)
  | retryExport (ex : Dirfrag) (tid : ℕ)
  deriving DecidableEq, Repr

def Waiter.ex : Waiter → Dirfrag
  | .exportWaitWrlock ex _ => ex
  | .retryExport ex _ => ex

end Lunule.Migrator

namespace Lunule

open Migrator in
structure Migrator where
  exportQueue : List (Dirfrag × MdsRank)
  exportState : List (Dirfrag × ExportState)
  filelockWaiters : List Waiter
  /-- `MDSRank::last_tid`, which `issue_tid` bumps for each internal request. -/
  lastTid : ℕ
  deriving DecidableEq, Repr

end Lunule

namespace Lunule.Migrator

open Runs IfBeat

def empty : Migrator := ⟨[], [], [], 0⟩

/-- What the rest of the MDS answers: whether the dirfrag is in cache and auth, whether
`export_dir`'s checks on the MDS, the map and the tree pass, whether `export_frozen` can
take its rdlocks and the nestlock, whether the filelock can be wrlocked, and the residual
dirs `check_export_size` splits off. -/
structure Env where
  isAuth : Dirfrag → Bool
  exportable : Dirfrag → MdsRank → Bool
  locksOk : Dirfrag → Bool
  filelockWrlockable : Dirfrag → Bool
  residual : Dirfrag → List Dirfrag

/-- `export_dir`: past its checks, and unless the dirfrag is already exporting, a new
export in `EXPORT_LOCKING` towards `dest` under the next tid. -/
def exportDir (env : Env) (dir : Dirfrag) (dest : MdsRank) (m : Migrator) : Migrator :=
  if env.exportable dir dest = true ∧ OrdMap.find? m.exportState dir = none then
    { m with
      exportState := OrdMap.set m.exportState dir ⟨.locking, dest, m.lastTid + 1, []⟩
      lastTid := m.lastTid + 1 }
  else m

/-- The loop of `maybe_do_queued_export` over the queue `q`: pop the front while at most
four exports are in `export_state`, and export it if its dirfrag is auth. -/
def queuedLoop (env : Env) : List (Dirfrag × MdsRank) → Migrator → Migrator
  | [], m => { m with exportQueue := [] }
  | (df, dest) :: rest, m =>
    if m.exportState.length ≤ 4 then
      queuedLoop env rest (if env.isAuth df = true then exportDir env df dest m else m)
    else { m with exportQueue := (df, dest) :: rest }

/-- `maybe_do_queued_export`. Its `running` guard only matters for reentry, which the
model's `export_dir` does not make. -/
def maybeDoQueuedExport (env : Env) (m : Migrator) : Migrator :=
  queuedLoop env m.exportQueue m

def exportDirNicely (env : Env) (dir : Dirfrag) (dest : MdsRank) (m : Migrator) : Migrator :=
  maybeDoQueuedExport env { m with exportQueue := m.exportQueue ++ [(dir, dest)] }

/-- `export_frozen(dir, tid)`. -/
def exportFrozen (migmode : ℤ) (env : Env) (dir : Dirfrag) (tid : ℕ) (m : Migrator) :
    Migrator :=
  match OrdMap.find? m.exportState dir with
  | none => m
  | some st =>
    -- "export must have aborted"; past it the source asserts `EXPORT_FREEZING`
    if st.tid ≠ tid ∨ st.state ≠ .freezing then m
    else if env.locksOk dir = false then
      { m with exportState := OrdMap.erase m.exportState dir }
    else if env.filelockWrlockable dir = false then
      if migmode = 2 then
        { m with filelockWaiters := m.filelockWaiters ++ [.exportWaitWrlock dir st.tid] }
      else
        -- under mode 1 the retry context is parked, then the export is cancelled as in
        -- every other mode
        let waiters :=
          if migmode = 1 then m.filelockWaiters ++ [.retryExport dir st.tid]
          else m.filelockWaiters
        { m with exportState := OrdMap.erase m.exportState dir, filelockWaiters := waiters }
    else
      { m with
        exportState := OrdMap.set m.exportState dir
          { st with state := .prepping, residualDirs := env.residual dir } }

/-- `finish(r)` of a parked context. `C_MDC_Retry_Export` passes its `uint64_t tid` where
`export_dir_nicely` takes a `mds_rank_t`. -/
def Waiter.finish (migmode : ℤ) (env : Env) (r : ℤ) (w : Waiter) (m : Migrator) : Migrator :=
  if r < 0 then m
  else
    match w with
    | .exportWaitWrlock ex tid => exportFrozen migmode env ex tid m
    | .retryExport ex tid => exportDirNicely env ex (toInt32 tid) m

/-- The filelock of `ex`'s inode wakes its waiters: they are taken off and finished in the
order they were added. -/
def filelockWake (migmode : ℤ) (env : Env) (ex : Dirfrag) (r : ℤ) (m : Migrator) :
    Migrator :=
  (m.filelockWaiters.filter (·.ex = ex)).foldl (fun m w => w.finish migmode env r m)
    { m with filelockWaiters := m.filelockWaiters.filter (·.ex ≠ ex) }

/-- The phase an ack moves an export to; `EXPORT_FREEZING` ends in `export_frozen` and
`EXPORT_NOTIFYING` in `export_finish`. -/
def ExportPhase.next : ExportPhase → ExportPhase
  | .locking => .discovering
  | .discovering => .freezing
  | .prepping => .warning
  | .warning => .exporting
  | .exporting => .loggingfinish
  | .loggingfinish => .notifying
  | p => p

def advance (dir : Dirfrag) (m : Migrator) : Migrator :=
  match OrdMap.find? m.exportState dir with
  | none => m
  | some st =>
    { m with exportState := OrdMap.set m.exportState dir { st with state := st.state.next } }

/-- `export_try_cancel`: an export not yet warning is cancelled and erased, a warning or
exporting one is cancelling until its acks are in, one logging its finish or cancelling
is left alone. -/
def exportTryCancel (env : Env) (dir : Dirfrag) (m : Migrator) : Migrator :=
  match OrdMap.find? m.exportState dir with
  | none => m
  | some st =>
    match st.state with
    | .locking | .discovering | .freezing | .prepping =>
      maybeDoQueuedExport env { m with exportState := OrdMap.erase m.exportState dir }
    | .warning | .exporting =>
      maybeDoQueuedExport env
        { m with exportState := OrdMap.set m.exportState dir { st with state := .cancelling } }
    | .loggingfinish | .notifying | .cancelling => m

/-- The last notify ack of a cancelling export: it is erased (`export_cancel_finish`). -/
def exportCancelFinish (dir : Dirfrag) (m : Migrator) : Migrator :=
  match OrdMap.find? m.exportState dir with
  | some st =>
    if st.state = .cancelling then { m with exportState := OrdMap.erase m.exportState dir }
    else m
  | none => m

/-- `export_finish` on the last notify ack: the residual dirs go to the front of the queue
towards the same peer, each `push_front` in turn, the export is erased, and the queue is
served. -/
def exportFinish (env : Env) (dir : Dirfrag) (m : Migrator) : Migrator :=
  match OrdMap.find? m.exportState dir with
  | some st =>
    if st.state = .notifying then
      maybeDoQueuedExport env
        { m with
          exportQueue := (st.residualDirs.map fun bd => (bd, st.peer)).reverse ++ m.exportQueue
          exportState := OrdMap.erase m.exportState dir }
    else m
  | none => m

inductive Event
  /-- The balancer's `export_dir_nicely(dir, dest)`. -/
  | exportDirNicely (dir : Dirfrag) (dest : MdsRank)
  /-- An ack moves the export of `dir` to its next phase. -/
  | advance (dir : Dirfrag)
  /-- `C_MDC_ExportFreeze` fires: the tree of `dir` is frozen. -/
  | freezeDone (dir : Dirfrag) (tid : ℕ)
  /-- The filelock of `ex`'s inode finishes its waiters with `r`. -/
  | filelockWake (ex : Dirfrag) (r : ℤ)
  | tryCancel (dir : Dirfrag)
  | cancelFinish (dir : Dirfrag)
  | exportFinish (dir : Dirfrag)
  deriving DecidableEq, Repr

def step (migmode : ℤ) (env : Env) (m : Migrator) : Event → Migrator
  | .exportDirNicely dir dest => exportDirNicely env dir dest m
  | .advance dir => advance dir m
  | .freezeDone dir tid => exportFrozen migmode env dir tid m
  | .filelockWake ex r => filelockWake migmode env ex r m
  | .tryCancel dir => exportTryCancel env dir m
  | .cancelFinish dir => exportCancelFinish dir m
  | .exportFinish dir => exportFinish env dir m

/-- Every event can happen; the environment answers with it. -/
def exec (migmode : ℤ) (m : Migrator) (e : Env × Event) : Option Migrator :=
  some (step migmode e.1 m e.2)

/-! ### Where the destinations come from -/

/-- The balancer's events name ranks in `R`. -/
def Event.FromBalancer (R : List MdsRank) : Event → Prop
  | .exportDirNicely _ dest => dest ∈ R
  | _ => True

section Sources

variable (migmode : ℤ) (R : List MdsRank)

/-- A destination in a run whose balancer asked only for ranks in `R`, once `n` tids are
issued: one of those ranks, or under `mds_bal_migmode = 1` an issued tid read as a rank. -/
def Source (n : ℕ) (r : MdsRank) : Prop :=
  r ∈ R ∨ migmode = 1 ∧ ∃ t, 0 < t ∧ t ≤ n ∧ r = toInt32 t

/-- A started export goes to a source and holds an issued tid. -/
def ExportState.Sourced (n : ℕ) (st : ExportState) : Prop :=
  Source migmode R n st.peer ∧ 0 < st.tid ∧ st.tid ≤ n

/-- A parked retry holds an issued tid and is parked only under mode 1. -/
def Waiter.Issued (n : ℕ) : Waiter → Prop
  | .exportWaitWrlock _ _ => True
  | .retryExport _ t => migmode = 1 ∧ 0 < t ∧ t ≤ n

/-- The invariant without the queue, which `maybe_do_queued_export` walks on its own. -/
structure Sourced (m : Migrator) : Prop where
  states : ∀ p ∈ m.exportState, p.2.Sourced migmode R m.lastTid
  waiters : ∀ w ∈ m.filelockWaiters, w.Issued migmode m.lastTid

structure Inv (m : Migrator) : Prop extends Sourced migmode R m where
  queue : ∀ p ∈ m.exportQueue, Source migmode R m.lastTid p.2

variable {migmode R}

theorem Source.mono {n n' : ℕ} {r : MdsRank} (h : Source migmode R n r) (hn : n ≤ n') :
    Source migmode R n' r := by
  rcases h with h | ⟨h1, t, ht0, htn, hr⟩
  · exact Or.inl h
  · exact Or.inr ⟨h1, t, ht0, htn.trans hn, hr⟩

theorem ExportState.Sourced.mono {n n' : ℕ} {st : ExportState}
    (h : st.Sourced migmode R n) (hn : n ≤ n') : st.Sourced migmode R n' :=
  ⟨h.1.mono hn, h.2.1, h.2.2.trans hn⟩

theorem Waiter.Issued.mono {n n' : ℕ} {w : Waiter} (h : w.Issued migmode n) (hn : n ≤ n') :
    w.Issued migmode n' := by
  cases w with
  | exportWaitWrlock => trivial
  | retryExport => exact ⟨h.1, h.2.1, h.2.2.trans hn⟩

theorem Sourced.mono_tid {m : Migrator} (h : Sourced migmode R m) {n : ℕ} (hn : m.lastTid ≤ n) :
    (∀ p ∈ m.exportState, p.2.Sourced migmode R n) ∧
      ∀ w ∈ m.filelockWaiters, w.Issued migmode n :=
  ⟨fun p hp => (h.states p hp).mono hn, fun w hw => (h.waiters w hw).mono hn⟩

theorem inv_empty : Inv migmode R empty :=
  ⟨⟨by simp [empty], by simp [empty]⟩, by simp [empty]⟩

/-- The queue is checked on its own: a state whose other parts are sourced, with a queue
of sources. -/
theorem Sourced.withQueue {m : Migrator} (hm : Sourced migmode R m)
    {q : List (Dirfrag × MdsRank)} (hq : ∀ p ∈ q, Source migmode R m.lastTid p.2) :
    Inv migmode R { m with exportQueue := q } :=
  ⟨⟨hm.states, hm.waiters⟩, hq⟩

/-- A new map of exports whose values are all sourced. -/
theorem Inv.withStates {m : Migrator} (hm : Inv migmode R m) {es : List (Dirfrag × ExportState)}
    (hes : ∀ p ∈ es, p.2.Sourced migmode R m.lastTid) :
    Inv migmode R { m with exportState := es } :=
  ⟨⟨hes, hm.waiters⟩, hm.queue⟩

variable {env : Env}

/-- A new export goes to its queued destination under the tid just issued. -/
theorem exportDir_sourced {m : Migrator} {dir : Dirfrag} {dest : MdsRank}
    (hm : Sourced migmode R m) (hd : Source migmode R m.lastTid dest) :
    Sourced migmode R (exportDir env dir dest m) ∧ m.lastTid ≤ (exportDir env dir dest m).lastTid ∧
      (exportDir env dir dest m).exportQueue = m.exportQueue := by
  unfold exportDir
  split_ifs
  · have hle : m.lastTid ≤ m.lastTid + 1 := Nat.le_succ _
    obtain ⟨hs, hw⟩ := hm.mono_tid hle
    exact ⟨⟨OrdMap.forall_set hs dir ⟨hd.mono hle, Nat.succ_pos _, le_rfl⟩, hw⟩, hle, rfl⟩
  · exact ⟨hm, le_rfl, rfl⟩

/-- The loop serves the queue it is given: what is left of it stays queued, and what it
pops becomes an export towards the popped destination or is dropped. -/
theorem queuedLoop_inv : ∀ (q : List (Dirfrag × MdsRank)) (m : Migrator),
    Sourced migmode R m → (∀ p ∈ q, Source migmode R m.lastTid p.2) →
      Inv migmode R (queuedLoop env q m) ∧ m.lastTid ≤ (queuedLoop env q m).lastTid
  | [], m, hm, _ => ⟨hm.withQueue (by simp), le_rfl⟩
  | (df, dest) :: rest, m, hm, hq => by
    unfold queuedLoop
    by_cases hlen : m.exportState.length ≤ 4
    · rw [if_pos hlen]
      have hpop : Sourced migmode R (if env.isAuth df = true then exportDir env df dest m else m) ∧
          m.lastTid ≤ (if env.isAuth df = true then exportDir env df dest m else m).lastTid := by
        split_ifs
        · exact (exportDir_sourced hm (hq _ List.mem_cons_self)).imp_right And.left
        · exact ⟨hm, le_rfl⟩
      obtain ⟨hinv, hle⟩ := queuedLoop_inv rest _ hpop.1
        fun p hp => (hq p (List.mem_cons_of_mem _ hp)).mono hpop.2
      exact ⟨hinv, hpop.2.trans hle⟩
    · rw [if_neg hlen]
      exact ⟨hm.withQueue hq, le_rfl⟩

theorem maybeDoQueuedExport_inv {m : Migrator} (hm : Inv migmode R m) :
    Inv migmode R (maybeDoQueuedExport env m) ∧ m.lastTid ≤ (maybeDoQueuedExport env m).lastTid :=
  queuedLoop_inv _ m hm.toSourced hm.queue

theorem exportDirNicely_inv {m : Migrator} {dir : Dirfrag} {dest : MdsRank}
    (hm : Inv migmode R m) (hd : Source migmode R m.lastTid dest) :
    Inv migmode R (exportDirNicely env dir dest m) ∧
      m.lastTid ≤ (exportDirNicely env dir dest m).lastTid := by
  have hq : ∀ p ∈ m.exportQueue ++ [(dir, dest)], Source migmode R m.lastTid p.2 := by
    intro p hp
    rcases List.mem_append.mp hp with hp | hp
    · exact hm.queue p hp
    · rw [List.mem_singleton] at hp
      subst hp
      exact hd
  exact maybeDoQueuedExport_inv (hm.toSourced.withQueue hq)

/-- `export_frozen` parks a retry only under mode 1, with the tid of the export it
cancels. -/
theorem exportFrozen_inv {m : Migrator} {dir : Dirfrag} {tid : ℕ} (hm : Inv migmode R m) :
    Inv migmode R (exportFrozen migmode env dir tid m) ∧
      (exportFrozen migmode env dir tid m).lastTid = m.lastTid := by
  unfold exportFrozen
  split
  · exact ⟨hm, rfl⟩
  · rename_i st hst
    have hsrc : st.Sourced migmode R m.lastTid := hm.states _ (OrdMap.mem_of_find? hst)
    split_ifs with habort hlocks hfile hmode2 hmode1
    · exact ⟨hm, rfl⟩
    · exact ⟨hm.withStates (OrdMap.forall_erase hm.states dir), rfl⟩
    · exact ⟨⟨⟨hm.states, List.forall_mem_append.mpr ⟨hm.waiters, by simp [Waiter.Issued]⟩⟩,
        hm.queue⟩, rfl⟩
    · have hretry : (Waiter.retryExport dir st.tid).Issued migmode m.lastTid := ⟨hmode1, hsrc.2⟩
      exact ⟨⟨⟨OrdMap.forall_erase hm.states dir,
        List.forall_mem_append.mpr ⟨hm.waiters, List.forall_mem_singleton.mpr hretry⟩⟩,
        hm.queue⟩, rfl⟩
    · exact ⟨hm.withStates (OrdMap.forall_erase hm.states dir), rfl⟩
    · exact ⟨hm.withStates (OrdMap.forall_set hm.states dir hsrc), rfl⟩

/-- A retry re-queues its export towards its tid read as a rank, a source under mode 1. -/
theorem Waiter.finish_inv {m : Migrator} {w : Waiter} {r : ℤ} (hm : Inv migmode R m)
    (hw : w.Issued migmode m.lastTid) :
    Inv migmode R (w.finish migmode env r m) ∧ m.lastTid ≤ (w.finish migmode env r m).lastTid := by
  unfold Waiter.finish
  split_ifs
  · exact ⟨hm, le_rfl⟩
  · cases w with
    | exportWaitWrlock ex tid =>
      have h : Inv migmode R (exportFrozen migmode env ex tid m) ∧
          (exportFrozen migmode env ex tid m).lastTid = m.lastTid := exportFrozen_inv hm
      exact ⟨h.1, h.2.ge⟩
    | retryExport ex tid =>
      exact exportDirNicely_inv hm (Or.inr ⟨hw.1, tid, hw.2.1, hw.2.2, rfl⟩)

theorem finish_foldl_inv (r : ℤ) : ∀ (ws : List Waiter) (m : Migrator), Inv migmode R m →
    (∀ w ∈ ws, w.Issued migmode m.lastTid) →
      Inv migmode R (ws.foldl (fun m w => w.finish migmode env r m) m)
  | [], _, hm, _ => hm
  | w :: ws, m, hm, hws => by
    obtain ⟨hinv, hle⟩ : Inv migmode R (w.finish migmode env r m) ∧
        m.lastTid ≤ (w.finish migmode env r m).lastTid :=
      Waiter.finish_inv hm (hws w List.mem_cons_self)
    exact finish_foldl_inv r ws _ hinv fun w' hw' => (hws w' (List.mem_cons_of_mem _ hw')).mono hle

theorem filelockWake_inv {m : Migrator} {ex : Dirfrag} {r : ℤ} (hm : Inv migmode R m) :
    Inv migmode R (filelockWake migmode env ex r m) :=
  finish_foldl_inv r _ _
    ⟨⟨hm.states, fun w hw => hm.waiters w (List.mem_of_mem_filter hw)⟩, hm.queue⟩
    fun w hw => hm.waiters w (List.mem_of_mem_filter hw)

theorem advance_inv {m : Migrator} {dir : Dirfrag} (hm : Inv migmode R m) :
    Inv migmode R (advance dir m) := by
  unfold advance
  split
  · exact hm
  · rename_i st hst
    exact hm.withStates (OrdMap.forall_set hm.states dir (hm.states _ (OrdMap.mem_of_find? hst)))

theorem exportTryCancel_inv {m : Migrator} {dir : Dirfrag} (hm : Inv migmode R m) :
    Inv migmode R (exportTryCancel env dir m) := by
  unfold exportTryCancel
  split
  · exact hm
  · rename_i st hst
    have hsrc := hm.states _ (OrdMap.mem_of_find? hst)
    have herase : Inv migmode R { m with exportState := OrdMap.erase m.exportState dir } :=
      hm.withStates (OrdMap.forall_erase hm.states dir)
    have hset : Inv migmode R
        { m with exportState := OrdMap.set m.exportState dir { st with state := .cancelling } } :=
      hm.withStates (OrdMap.forall_set hm.states dir hsrc)
    cases st.state with
    | locking | discovering | freezing | prepping => exact (maybeDoQueuedExport_inv herase).1
    | warning | exporting => exact (maybeDoQueuedExport_inv hset).1
    | loggingfinish | notifying | cancelling => exact hm

theorem exportCancelFinish_inv {m : Migrator} {dir : Dirfrag} (hm : Inv migmode R m) :
    Inv migmode R (exportCancelFinish dir m) := by
  unfold exportCancelFinish
  split
  · split_ifs
    · exact hm.withStates (OrdMap.forall_erase hm.states dir)
    · exact hm
  · exact hm

/-- The residual dirs go towards the finished export's peer, which is a source. -/
theorem exportFinish_inv {m : Migrator} {dir : Dirfrag} (hm : Inv migmode R m) :
    Inv migmode R (exportFinish env dir m) := by
  unfold exportFinish
  split
  · rename_i st hst
    have hsrc := hm.states _ (OrdMap.mem_of_find? hst)
    split_ifs
    · have hs : Sourced migmode R { m with exportState := OrdMap.erase m.exportState dir } :=
        ⟨OrdMap.forall_erase hm.states dir, hm.waiters⟩
      refine (maybeDoQueuedExport_inv (hs.withQueue ?_)).1
      intro p hp
      rcases List.mem_append.mp hp with hp | hp
      · obtain ⟨bd, -, rfl⟩ := List.mem_map.mp (List.mem_reverse.mp hp)
        exact hsrc.1
      · exact hm.queue p hp
    · exact hm
  · exact hm

/-- One step keeps the invariant when the balancer asks for a rank in `R`. -/
theorem step_inv {m : Migrator} {e : Event} (hm : Inv migmode R m) (he : e.FromBalancer R) :
    Inv migmode R (step migmode env m e) := by
  cases e with
  | exportDirNicely dir dest => exact (exportDirNicely_inv hm (Or.inl he)).1
  | advance dir => exact advance_inv hm
  | freezeDone dir tid => exact (exportFrozen_inv hm).1
  | filelockWake ex r => exact filelockWake_inv hm
  | tryCancel dir => exact exportTryCancel_inv hm
  | cancelFinish dir => exact exportCancelFinish_inv hm
  | exportFinish dir => exact exportFinish_inv hm

/-- In every run whose balancer asks only for ranks in `R`, every queued destination and
every running export's peer is one of them, or, under `mds_bal_migmode = 1`, the tid of an
export issued in the run read as a rank. -/
theorem run_inv (es : List (Env × Event)) (hR : ∀ e ∈ es, e.2.FromBalancer R) {m : Migrator}
    (hrun : run (exec migmode) empty es = some m) : Inv migmode R m :=
  run_invariant_of_forall (exec migmode) (Inv migmode R) (fun e => e.2.FromBalancer R)
    (fun _ e _ hm he hexec => by
      cases hexec
      exact step_inv hm he)
    es empty m inv_empty hR hrun

/-- Outside mode 1 the destinations are the balancer's. -/
theorem dests_requested (hmode : migmode ≠ 1) (es : List (Env × Event))
    (hR : ∀ e ∈ es, e.2.FromBalancer R) {m : Migrator}
    (hrun : run (exec migmode) empty es = some m) :
    (∀ p ∈ m.exportQueue, p.2 ∈ R) ∧ ∀ p ∈ m.exportState, p.2.peer ∈ R := by
  have hinv := run_inv es hR hrun
  have hsrc : ∀ {n : ℕ} {r : MdsRank}, Source migmode R n r → r ∈ R := fun h =>
    h.resolve_right fun h' => hmode h'.1
  exact ⟨fun p hp => hsrc (hinv.queue p hp), fun p hp => hsrc (hinv.states p hp).1⟩

end Sources

/-! ### A retry towards the tid -/

/-- Every check passes but the filelock, which is never wrlockable. -/
def contendedEnv : Env := ⟨fun _ => true, fun _ _ => true, fun _ => true, fun _ => false, fun _ => []⟩

/-- Under mode 1 the balancer exports dirfrag 5 to rank 2; the export gets tid 1, freezes,
finds the filelock contended and is cancelled with a retry parked. When the filelock
wakes, the retry queues dirfrag 5 towards rank 1, its tid, and that export starts. -/
theorem retried_export_goes_to_tid :
    run (exec 1) empty
      [(contendedEnv, .exportDirNicely 5 2), (contendedEnv, .advance 5),
        (contendedEnv, .advance 5), (contendedEnv, .freezeDone 5 1),
        (contendedEnv, .filelockWake 5 0)] =
      some ⟨[], [(5, ⟨.locking, 1, 2, []⟩)], [], 2⟩ := by
  decide +kernel

end Lunule.Migrator
