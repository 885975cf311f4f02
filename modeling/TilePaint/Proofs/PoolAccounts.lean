/-
  TilePaint/Proofs/PoolAccounts.lean
  ==================================
  **What becomes of every job that is posted to a pool.**

  A `Ledger` is a pool together with the jobs posted to it so far, who took which of
  them, who ended which, and the jobs that nobody ran.  Posts, the stop signal and the
  steps of the workers come in any order.

  The jobs that were posted are, in the order of posting, those taken, those dropped
  when the last worker left, those queued, and those refused after the stop signal
  (`Balanced.order`).  What one worker took is what it ended, in the same order, and
  the job in its hands (`Balanced.hands`).  A job that gives up ends like any other.

  The stop signal is looked at, the queue served and the end of the queue noticed in
  different places of the loop.  A worker that waits has passed the signal and may
  take one job more; nobody else takes any (`Run.taken_after_stop`).
-/
import TilePaint.Proofs.WorkerProgress

namespace TilePaint

/-! ## 1. Pools that stop -/

/-- After the stop signal, a bound for the steps that a worker has before it. -/
def Worker.turns {α : Type} : Worker α → Nat
  | .looking => 1
  | .waiting => 3
  | .busy _ => 2
  | .gone => 0

/-- After the stop signal, the number of jobs that a worker may still take. -/
def Worker.mayTake {α : Type} : Worker α → Nat
  | .waiting => 1
  | _ => 0

/-- A worker that looks or waits is there, and has no job. -/
theorem Worker.between_jobs {α : Type} {state : Worker α}
    (h : state = .looking ∨ state = .waiting) :
    state ≠ .gone ∧ state.job? = none ∧ 0 < state.turns := by
  rcases h with rfl | rfl
  · exact ⟨Worker.looking_ne_gone, rfl, Nat.zero_lt_succ 0⟩
  · exact ⟨Worker.waiting_ne_gone, rfl, Nat.zero_lt_succ 2⟩

namespace Pool

variable {α : Type} {p : Pool α} {w : Nat} {state : Worker α}

theorem inHand_setWorker_of_same (h : p.worker w ≠ .gone)
    (hjob : state.job? = (p.worker w).job?) : (p.setWorker w state).inHand.Perm p.inHand := by
  obtain ⟨others, hbefore, hafter⟩ := inHand_setWorker h
  have hstate := hafter state
  rw [hjob] at hstate
  exact hstate.trans hbefore.symm

theorem inHand_setWorker_busy {job : α} (h : p.worker w ≠ .gone)
    (hjob : (p.worker w).job? = none) :
    (p.setWorker w (.busy job)).inHand.Perm (job :: p.inHand) := by
  obtain ⟨others, hbefore, hafter⟩ := inHand_setWorker h
  rw [hjob] at hbefore
  exact (hafter (.busy job)).trans (hbefore.symm.cons job)

theorem inHand_of_busy {job : α} (h : p.worker w = .busy job) (hjob : state.job? = none) :
    p.inHand.Perm (job :: (p.setWorker w state).inHand) := by
  obtain ⟨others, hbefore, hafter⟩ := inHand_setWorker (h.trans_ne Worker.busy_ne_gone)
  have hstate := hafter state
  rw [hjob] at hstate
  rw [h] at hbefore
  exact hbefore.trans (hstate.symm.cons job)

theorem job?_setWorker_of_same (h : p.worker w ≠ .gone) (hjob : state.job? = (p.worker w).job?)
    (v : Nat) : ((p.setWorker w state).worker v).job? = (p.worker v).job? := by
  rw [worker_setWorker (lt_size_of_worker h)]
  split
  · next hv => rw [hv, hjob]
  · rfl

/-- Unless it begins to wait, a worker has no more jobs before it than it had. -/
theorem mayTake_setWorker (h : p.worker w ≠ .gone) (hstate : state.mayTake = 0) (v : Nat) :
    ((p.setWorker w state).worker v).mayTake ≤ (p.worker v).mayTake := by
  rw [worker_setWorker (lt_size_of_worker h)]
  split
  · rw [hstate]
    exact Nat.zero_le _
  · exact Nat.le_refl _

/-- The sum of the bounds of all workers. -/
def turnsLeft (p : Pool α) : Nat := (p.workers.toList.map Worker.turns).sum

theorem turnsLeft_setWorker (h : state.turns < (p.worker w).turns) :
    (p.setWorker w state).turnsLeft < p.turnsLeft := by
  have hthere : p.worker w ≠ .gone := by
    intro hgone
    rw [hgone] at h
    exact Nat.not_lt_zero _ h
  obtain ⟨before, after, hbefore, hafter⟩ := workers_split hthere
  rw [turnsLeft, turnsLeft, hbefore, hafter state]
  simp only [List.map_append, List.map_cons, List.sum_append_nat, List.sum_cons]
  omega

end Pool

/-! ## 2. Ledgers -/

/-- A pool, and what became of the jobs that were posted to it. -/
structure Ledger (α : Type) where
  pool : Pool α
  posted : List α
  /-- The jobs that were taken, each with its worker. -/
  taken : List (Nat × α)
  /-- The jobs that ended, each with its worker and whether it gave up. -/
  ended : List (Nat × α × Bool)
  /-- The jobs that were queued when the last worker left. -/
  dropped : List α
  /-- The jobs that came after the stop signal. -/
  refused : List α

/-- What can happen to a pool: something its owner does, or a step of a worker. -/
inductive PoolAction (α : Type) where
  | post (job : α)
  | stop
  | look (w : Nat)
  | take (w : Nat)
  | timeout (w : Nat)
  | disconnect (w : Nat)
  | finish (w : Nat) (gaveUp : Bool)

def PoolAction.byWorker {α : Type} : PoolAction α → Bool
  | .post _ => false
  | .stop => false
  | _ => true

namespace Ledger

variable {α : Type}

def start (config : PoolConfig) : Ledger α := ⟨.ofConfig config, [], [], [], [], []⟩

/-- The ledger with a pool from which a worker may just have left. -/
def leave (r : Ledger α) (pool : Pool α) : Ledger α :=
  { r with pool := pool.drain.2, dropped := r.dropped ++ pool.drain.1 }

/-- One action, if the worker is where it can take it. -/
def act (r : Ledger α) : PoolAction α → Option (Ledger α)
  | .post job => some { r with
      pool := r.pool.post job
      posted := r.posted ++ [job]
      refused := if r.pool.stopping then r.refused ++ [job] else r.refused }
  | .stop => some { r with pool := r.pool.stop }
  | .look w => (r.pool.look w).map r.leave
  | .take w => (r.pool.take w).map fun pool =>
      { r with pool, taken := r.taken ++ (pool.worker w).job?.toList.map fun job => (w, job) }
  | .timeout w => (r.pool.timeout w).map fun pool => { r with pool }
  | .disconnect w => (r.pool.disconnect w).map r.leave
  | .finish w gaveUp => (r.pool.finish w).map fun pool =>
      { r with
        pool
        ended := r.ended ++ (r.pool.worker w).job?.toList.map fun job => (w, job, gaveUp) }

abbrev Run : Ledger α → Ledger α → Prop :=
  Relation.ReflTransGen fun r r' => ∃ a, r.act a = some r'

variable {r r' : Ledger α} {a : PoolAction α} {config : PoolConfig} {w : Nat}

/-- All actions of a list, one after the other. -/
def actAll (r : Ledger α) (actions : List (PoolAction α)) : Option (Ledger α) :=
  actions.foldlM act r

theorem run_of_actAll {actions : List (PoolAction α)} (h : r.actAll actions = some r') :
    Run r r' := run_of_foldlM h

/-- What an action does. -/
inductive Acts (r : Ledger α) : PoolAction α → Ledger α → Prop where
  | posted {job : α} (hopen : r.pool.stopping = false) :
      Acts r (.post job)
        { r with
          pool := { r.pool with queue := r.pool.queue ++ [job] }, posted := r.posted ++ [job] }
  | refused {job : α} (hstopping : r.pool.stopping = true) :
      Acts r (.post job) { r with posted := r.posted ++ [job], refused := r.refused ++ [job] }
  | stopped : Acts r .stop { r with pool := r.pool.stop }
  | waits {w : Nat} (hworker : r.pool.worker w = .looking) (hopen : r.pool.stopping = false) :
      Acts r (.look w) { r with pool := r.pool.setWorker w .waiting }
  | takes {w : Nat} {job : α} {queue : List α} (hworker : r.pool.worker w = .waiting)
      (hqueue : r.pool.queue = job :: queue) :
      Acts r (.take w)
        { r with
          pool := ({ r.pool with queue } : Pool α).setWorker w (.busy job)
          taken := r.taken ++ [(w, job)] }
  | timedOut {w : Nat} (hworker : r.pool.worker w = .waiting) :
      Acts r (.timeout w) { r with pool := r.pool.setWorker w .looking }
  | finished {w : Nat} {gaveUp : Bool} {job : α} (hworker : r.pool.worker w = .busy job) :
      Acts r (.finish w gaveUp)
        { r with
          pool := r.pool.setWorker w .looking, ended := r.ended ++ [(w, job, gaveUp)] }
  | leaves {a : PoolAction α} {w : Nat} (ha : a.byWorker = true)
      (hstopping : r.pool.stopping = true)
      (hworker : r.pool.worker w = .looking ∨ r.pool.worker w = .waiting) :
      Acts r a (r.leave (r.pool.setWorker w .gone))

/-- **One action**, inverted. -/
theorem act_cases (h : r.act a = some r') : r.Acts a r' := by
  cases a with
  | post job =>
    cases h
    by_cases hstopping : r.pool.stopping = true
    · rw [Pool.post, if_pos hstopping, if_pos hstopping]
      exact .refused hstopping
    · rw [Pool.post, if_neg hstopping, if_neg hstopping]
      exact .posted (Bool.eq_false_iff.mpr hstopping)
  | stop =>
    cases h
    exact .stopped
  | look w =>
    obtain ⟨pool, hlook, rfl⟩ := Option.map_eq_some_iff.mp h
    unfold Pool.look at hlook
    split at hlook
    · next hworker =>
      cases hlook
      cases hstopping : r.pool.stopping with
      | false =>
        have hwaiting : (r.pool.setWorker w .waiting).worker w = .waiting :=
          Pool.worker_setWorker_self (hworker.trans_ne Worker.looking_ne_gone)
        -- nobody has left, so the pool is not deserted and drops nothing
        have hthere := hwaiting.trans_ne Worker.waiting_ne_gone
        simp only [leave, Bool.false_eq_true, if_false, Pool.drain_of_present hthere,
          List.append_nil]
        exact .waits hworker hstopping
      | true => exact .leaves rfl hstopping (Or.inl hworker)
    · cases hlook
  | take w =>
    obtain ⟨pool, htake, rfl⟩ := Option.map_eq_some_iff.mp h
    unfold Pool.take at htake
    split at htake
    · next job queue hworker hqueue =>
      cases htake
      have hwaiting : ({ r.pool with queue } : Pool α).worker w = .waiting := hworker
      rw [Pool.worker_setWorker_self (hwaiting.trans_ne Worker.waiting_ne_gone)]
      exact .takes hworker hqueue
    · cases htake
  | timeout w =>
    obtain ⟨pool, htimeout, rfl⟩ := Option.map_eq_some_iff.mp h
    unfold Pool.timeout at htimeout
    split at htimeout
    · next hworker =>
      cases htimeout
      exact .timedOut hworker
    · cases htimeout
  | disconnect w =>
    obtain ⟨pool, hleave, rfl⟩ := Option.map_eq_some_iff.mp h
    unfold Pool.disconnect at hleave
    split at hleave
    · next hworker _ =>
      split at hleave
      · next hstopping =>
        cases hleave
        exact .leaves rfl hstopping (Or.inr hworker)
      · cases hleave
    · cases hleave
  | finish w gaveUp =>
    obtain ⟨pool, hfinish, rfl⟩ := Option.map_eq_some_iff.mp h
    unfold Pool.finish at hfinish
    split at hfinish
    · next job hworker =>
      cases hfinish
      rw [hworker]
      exact .finished hworker
    · cases hfinish

/-! ## 3. The books -/

/-- What the entries of a list say about one worker. -/
def ofWorker {β : Type} (w : Nat) (entries : List (Nat × β)) : List β :=
  (entries.filter fun e => e.1 = w).map Prod.snd

theorem ofWorker_append {β : Type} (w : Nat) (entries more : List (Nat × β)) :
    ofWorker w (entries ++ more) = ofWorker w entries ++ ofWorker w more := by
  rw [ofWorker, List.filter_append, List.map_append]
  rfl

theorem ofWorker_singleton {β : Type} (w v : Nat) (b : β) :
    ofWorker w [(v, b)] = if w = v then [b] else [] := by
  by_cases hw : w = v
  · subst hw
    simp [ofWorker]
  · simp [ofWorker, hw, Ne.symm hw]

theorem mem_ofWorker {β : Type} {entries : List (Nat × β)} {b : β} :
    b ∈ ofWorker w entries ↔ (w, b) ∈ entries := by
  simp [ofWorker]

theorem ofWorker_eq_map {β : Type} {entries : List (Nat × β)} (h : ∀ e ∈ entries, e.1 = w) :
    ofWorker w entries = entries.map Prod.snd := by
  rw [ofWorker, List.filter_eq_self.mpr]
  intro e he
  exact decide_eq_true (h e he)

/-- The jobs that ended, in this order. -/
def jobsEnded (r : Ledger α) : List α := r.ended.map fun e => e.2.1

/-- What the ledger of a pool of `n` workers always says. -/
structure Balanced (n : Nat) (r : Ledger α) : Prop where
  size : r.pool.workers.size = n
  staffed : r.pool.Staffed
  order : r.posted = r.taken.map Prod.snd ++ (r.dropped ++ (r.pool.queue ++ r.refused))
  hands : ∀ w, ofWorker w r.taken =
    (ofWorker w r.ended).map Prod.fst ++ (r.pool.worker w).job?.toList
  held : (r.taken.map Prod.snd).Perm (r.jobsEnded ++ r.pool.inHand)
  takers : ∀ e ∈ r.taken, e.1 < n
  running : r.pool.stopping = false → r.refused = []
  manned : r.pool.isDeserted = false → r.dropped = []
  deserted : r.pool.isDeserted = true → r.pool.queue = []

theorem balanced_start (config : PoolConfig) :
    Balanced (max 1 config.workers) (start config : Ledger α) := by
  have hstaffed : (Pool.ofConfig config : Pool α).Staffed := Pool.staffed_ofConfig config
  have hidle : ∀ w, ((Pool.ofConfig config : Pool α).worker w).job? = none := by
    intro w
    simp only [Pool.worker, Pool.ofConfig, Array.getD_eq_getD_getElem?, Array.getElem?_replicate]
    split
    · rfl
    · rfl
  refine ⟨Array.size_replicate, hstaffed, rfl, fun w => ?_, ?_, List.forall_mem_nil _, fun _ => rfl,
    fun _ => rfl, fun _ => rfl⟩
  · show [] = [] ++ ((Pool.ofConfig config : Pool α).worker w).job?.toList
    rw [hidle w]
    rfl
  · show [].Perm ([] ++ (Pool.ofConfig config : Pool α).inHand)
    rw [Pool.inHand_eq_nil hidle]
    exact .refl _

namespace Balanced

variable {n : Nat} {job : α} {state : Worker α}

theorem post (h : r.Balanced n) (hopen : r.pool.stopping = false) :
    Balanced n { r with
      pool := { r.pool with queue := r.pool.queue ++ [job] }, posted := r.posted ++ [job] } :=
  { h with
    staffed := (Pool.GoesOn.queue r.pool _).staffed h.staffed
    order := by
      show r.posted ++ [job] = _
      rw [h.order, h.running hopen]
      simp only [List.append_nil, List.append_assoc]
    deserted := fun hdeserted =>
      absurd (Pool.isDeserted_iff.mp hdeserted 0) (h.staffed.present hopen 0 h.staffed.workers) }

theorem refuse (h : r.Balanced n) (hstopping : r.pool.stopping = true) :
    Balanced n { r with posted := r.posted ++ [job], refused := r.refused ++ [job] } :=
  { h with
    order := by
      show r.posted ++ [job] = _
      rw [h.order]
      simp only [List.append_assoc]
    running := fun hopen => by
      rw [hstopping] at hopen
      cases hopen }

theorem stop (h : r.Balanced n) : Balanced n { r with pool := r.pool.stop } :=
  { h with
    staffed := ⟨h.staffed.workers, fun hopen => by cases hopen⟩
    running := fun hopen => by cases hopen }

/-- A worker goes from one place in its loop to another, and keeps the job that it has. -/
theorem turn (h : r.Balanced n) (hthere : r.pool.worker w ≠ .gone) (hstate : state ≠ .gone)
    (hjob : state.job? = (r.pool.worker w).job?) :
    Balanced n { r with pool := r.pool.setWorker w state } := by
  have hpresent : (r.pool.setWorker w state).isDeserted = false :=
    Pool.isDeserted_of_present (by rw [Pool.worker_setWorker_self hthere]; exact hstate)
  refine { h with
    size := Array.size_setIfInBounds.trans h.size
    staffed := (Pool.GoesOn.setWorker w fun _ => hstate).staffed h.staffed
    hands := fun v => ?_
    held := h.held.trans ((Pool.inHand_setWorker_of_same hthere hjob).symm.append_left _)
    manned := fun _ => h.manned (Pool.isDeserted_of_present hthere)
    deserted := fun hdeserted => ?_ }
  · rw [Pool.job?_setWorker_of_same hthere hjob]
    exact h.hands v
  · rw [hpresent] at hdeserted
    cases hdeserted

theorem take (h : r.Balanced n) {queue : List α} (hworker : r.pool.worker w = .waiting)
    (hqueue : r.pool.queue = job :: queue) :
    Balanced n { r with
      pool := ({ r.pool with queue } : Pool α).setWorker w (.busy job)
      taken := r.taken ++ [(w, job)] } := by
  have hthere : r.pool.worker w ≠ .gone := hworker.trans_ne Worker.waiting_ne_gone
  have hw : w < r.pool.workers.size := Pool.lt_size_of_worker hthere
  have hgoes : r.pool.GoesOn (({ r.pool with queue } : Pool α).setWorker w (.busy job)) :=
    (Pool.GoesOn.queue r.pool queue).trans (Pool.GoesOn.setWorker w fun _ => Worker.busy_ne_gone)
  have hbusy : (({ r.pool with queue } : Pool α).setWorker w (.busy job)).worker w = .busy job :=
    Pool.worker_setWorker_self hthere
  have hheld : (({ r.pool with queue } : Pool α).setWorker w (.busy job)).inHand.Perm
      (job :: r.pool.inHand) :=
    Pool.inHand_setWorker_busy hthere (congrArg Worker.job? hworker)
  -- a worker is there, so no job has been dropped yet
  have hmanned := h.manned (Pool.isDeserted_of_present hthere)
  refine ⟨Array.size_setIfInBounds.trans h.size, hgoes.staffed h.staffed, ?_, fun v => ?_, ?_, ?_,
    h.running, fun _ => hmanned, fun hdeserted => ?_⟩
  · show r.posted = (r.taken ++ [(w, job)]).map Prod.snd ++ (r.dropped ++ (queue ++ r.refused))
    rw [h.order, hqueue, hmanned, List.map_append]
    simp
  · show ofWorker v (r.taken ++ [(w, job)]) = _
    have hhands := h.hands v
    rw [ofWorker_append, ofWorker_singleton, hhands,
      Pool.worker_setWorker (p := { r.pool with queue }) hw]
    by_cases hv : v = w
    · subst hv
      rw [if_pos rfl, if_pos rfl, hworker]
      simp [Worker.job?]
    · rw [if_neg hv, if_neg hv, List.append_nil]
      rfl
  · show ((r.taken ++ [(w, job)]).map Prod.snd).Perm _
    rw [List.map_append]
    refine (h.held.append_right [job]).trans ?_
    rw [List.append_assoc]
    exact (List.perm_append_comm.trans hheld.symm).append_left _
  · intro e he
    rcases List.mem_append.mp he with he | he
    · exact h.takers e he
    · rw [List.mem_singleton.mp he, ← h.size]
      exact hw
  · rw [Pool.isDeserted_iff.mp hdeserted w] at hbusy
    cases hbusy

theorem finish (h : r.Balanced n) {gaveUp : Bool} (hworker : r.pool.worker w = .busy job) :
    Balanced n { r with
      pool := r.pool.setWorker w .looking, ended := r.ended ++ [(w, job, gaveUp)] } := by
  have hthere : r.pool.worker w ≠ .gone := hworker.trans_ne Worker.busy_ne_gone
  have hw : w < r.pool.workers.size := Pool.lt_size_of_worker hthere
  have hgoes : r.pool.GoesOn (r.pool.setWorker w .looking) :=
    .setWorker w fun _ => Worker.looking_ne_gone
  have hlooking : (r.pool.setWorker w .looking).worker w = .looking :=
    Pool.worker_setWorker_self hthere
  have hheld : r.pool.inHand.Perm (job :: (r.pool.setWorker w .looking).inHand) :=
    Pool.inHand_of_busy hworker rfl
  refine { h with
    size := Array.size_setIfInBounds.trans h.size
    staffed := hgoes.staffed h.staffed
    hands := fun v => ?_
    held := ?_
    manned := fun _ => h.manned (Pool.isDeserted_of_present hthere)
    deserted := fun hdeserted => ?_ }
  · show _ = (ofWorker v (r.ended ++ [(w, job, gaveUp)])).map Prod.fst ++ _
    rw [ofWorker_append, ofWorker_singleton, List.map_append, Pool.worker_setWorker hw, h.hands v]
    by_cases hv : v = w
    · subst hv
      rw [if_pos rfl, if_pos rfl, hworker]
      simp [Worker.job?]
    · rw [if_neg hv, if_neg hv, List.map_nil, List.append_nil]
  · show (r.taken.map Prod.snd).Perm ((r.ended ++ [(w, job, gaveUp)]).map (fun e => e.2.1) ++ _)
    rw [List.map_append, List.append_assoc]
    exact h.held.trans (hheld.append_left _)
  · rw [Pool.isDeserted_iff.mp hdeserted w] at hlooking
    cases hlooking

theorem leave (h : r.Balanced n) (hstopping : r.pool.stopping = true)
    (hthere : r.pool.worker w ≠ .gone) (hjob : (r.pool.worker w).job? = none) :
    Balanced n (r.leave (r.pool.setWorker w .gone)) := by
  have hgoes : r.pool.GoesOn (r.pool.setWorker w .gone) := .setWorker w fun hopen => by
    rw [hstopping] at hopen
    cases hopen
  have hsize : (r.pool.setWorker w .gone).workers.size = n :=
    Array.size_setIfInBounds.trans h.size
  -- a worker that leaves has no job in hand, so the hands stay as they are
  have hsame : (Worker.gone : Worker α).job? = (r.pool.worker w).job? := hjob.symm
  have hhands : ∀ v, ofWorker v r.taken = (ofWorker v r.ended).map Prod.fst ++
      ((r.pool.setWorker w .gone).worker v).job?.toList := by
    intro v
    rw [Pool.job?_setWorker_of_same hthere hsame]
    exact h.hands v
  have hheld := h.held.trans ((Pool.inHand_setWorker_of_same hthere hsame).symm.append_left _)
  have hmanned := h.manned (Pool.isDeserted_of_present hthere)
  have horder := h.order
  have hrunning : (r.pool.setWorker w .gone).stopping = false → r.refused = [] := h.running
  unfold Ledger.leave Pool.drain
  split
  · next hdeserted =>
    refine ⟨hsize, (Pool.GoesOn.queue _ []).staffed (hgoes.staffed h.staffed), ?_, hhands, hheld,
      h.takers, hrunning, fun hstays => ?_, fun _ => rfl⟩
    · rw [hmanned] at horder ⊢
      exact horder
    · cases hdeserted.symm.trans hstays
  · next hstays =>
    refine ⟨hsize, hgoes.staffed h.staffed, ?_, hhands, hheld, h.takers, hrunning, fun _ => ?_,
      fun hdeserted => absurd hdeserted hstays⟩
    · rw [List.append_nil]
      exact horder
    · rw [List.append_nil]
      exact hmanned

/-- **One action** keeps the books. -/
theorem step (h : r.Balanced n) (hact : r.act a = some r') : r'.Balanced n := by
  cases act_cases hact with
  | posted hopen => exact h.post hopen
  | refused hstopping => exact h.refuse hstopping
  | stopped => exact h.stop
  | waits hworker _ =>
    exact h.turn (hworker.trans_ne Worker.looking_ne_gone) Worker.waiting_ne_gone
      (by rw [hworker]; rfl)
  | takes hworker hqueue => exact h.take hworker hqueue
  | timedOut hworker =>
    exact h.turn (hworker.trans_ne Worker.waiting_ne_gone) Worker.looking_ne_gone
      (by rw [hworker]; rfl)
  | finished hworker => exact h.finish hworker
  | leaves _ hstopping hworker =>
    obtain ⟨hthere, hjob, -⟩ := Worker.between_jobs hworker
    exact h.leave hstopping hthere hjob

theorem run (h : r.Balanced n) (hrun : Run r r') : r'.Balanced n := by
  induction hrun with
  | refl => exact h
  | tail _ hlast ih =>
    obtain ⟨a, hact⟩ := hlast
    exact ih.step hact

/-- Only a worker of the pool ends a job. -/
theorem enders (h : r.Balanced n) {e : Nat × α × Bool} (he : e ∈ r.ended) : e.1 < n := by
  have hended : e.2.1 ∈ (ofWorker e.1 r.ended).map Prod.fst :=
    List.mem_map_of_mem (mem_ofWorker.mpr he)
  have htaken : e.2.1 ∈ ofWorker e.1 r.taken := by
    rw [h.hands]
    exact List.mem_append_left _ hended
  exact h.takers _ (mem_ofWorker.mp htaken)

/-- One worker ends the jobs in the order in which it took them. -/
theorem jobsEnded_prefix (h : r.Balanced 1) : r.jobsEnded <+: r.posted := by
  have htaken : ofWorker 0 r.taken = r.taken.map Prod.snd :=
    ofWorker_eq_map fun e he => Nat.lt_one_iff.mp (h.takers e he)
  have hended : (ofWorker 0 r.ended).map Prod.fst = r.jobsEnded := by
    rw [ofWorker_eq_map fun e he => Nat.lt_one_iff.mp (h.enders he), List.map_map]
    rfl
  have hhands := h.hands 0
  rw [htaken, hended] at hhands
  rw [h.order, hhands, List.append_assoc]
  exact List.prefix_append _ _

/-- If no worker is in a job, the jobs that were taken have ended. -/
theorem ended_of_idle (h : r.Balanced n) (hidle : ∀ w, (r.pool.worker w).job? = none) :
    (r.taken.map Prod.snd).Perm r.jobsEnded := by
  have hheld := h.held
  rw [Pool.inHand_eq_nil hidle, List.append_nil] at hheld
  exact hheld

end Balanced

/-! ## 4. After the stop signal -/

theorem Acts.stopping (h : r.Acts a r') (hstopping : r.pool.stopping = true) :
    r'.pool.stopping = true := by
  cases h with
  | posted hopen => exact hstopping
  | refused _ => exact hstopping
  | stopped => rfl
  | waits _ _ => exact hstopping
  | takes _ _ => exact hstopping
  | timedOut _ => exact hstopping
  | finished _ => exact hstopping
  | leaves _ _ _ => exact ((Pool.GoesOn.drain _).stopping).trans hstopping

theorem workers_leave (pool : Pool α) : (r.leave pool).pool.workers = pool.workers := by
  unfold leave Pool.drain
  split
  · rfl
  · rfl

/-- What a worker takes now it may not take later on. -/
theorem Acts.taken (h : r.Acts a r') (hstopping : r.pool.stopping = true) :
    ∃ more, r'.taken = r.taken ++ more ∧ ∀ w,
      (ofWorker w more).length + (r'.pool.worker w).mayTake ≤ (r.pool.worker w).mayTake := by
  have hnone : ∀ pool : Pool α, (∀ v, (pool.worker v).mayTake ≤ (r.pool.worker v).mayTake) →
      ∃ more, r.taken = r.taken ++ more ∧ ∀ v,
        (ofWorker v more).length + (pool.worker v).mayTake ≤ (r.pool.worker v).mayTake := by
    intro pool hpool
    refine ⟨[], (List.append_nil _).symm, fun v => ?_⟩
    rw [show (ofWorker v ([] : List (Nat × α))).length = 0 from rfl, Nat.zero_add]
    exact hpool v
  cases h with
  | posted hopen =>
    rw [hstopping] at hopen
    cases hopen
  | refused _ => exact hnone r.pool fun _ => Nat.le_refl _
  | stopped => exact hnone r.pool fun _ => Nat.le_refl _
  | waits _ hopen =>
    rw [hstopping] at hopen
    cases hopen
  | @takes w job queue hworker _ =>
    have hthere : r.pool.worker w ≠ .gone := hworker.trans_ne Worker.waiting_ne_gone
    refine ⟨[(w, job)], rfl, fun v => ?_⟩
    show _ + ((({ r.pool with queue } : Pool α).setWorker w (.busy job)).worker v).mayTake ≤ _
    rw [Pool.worker_setWorker (p := { r.pool with queue }) (Pool.lt_size_of_worker hthere)]
    rw [ofWorker_singleton]
    by_cases hv : v = w
    · rw [if_pos hv, if_pos hv, hv, hworker]
      exact Nat.le_refl 1
    · rw [if_neg hv, if_neg hv]
      exact Nat.le_of_eq (Nat.zero_add _)
  | timedOut hworker =>
    exact hnone _ (Pool.mayTake_setWorker (hworker.trans_ne Worker.waiting_ne_gone) rfl)
  | finished hworker =>
    exact hnone _ (Pool.mayTake_setWorker (hworker.trans_ne Worker.busy_ne_gone) rfl)
  | @leaves _ w _ _ hworker =>
    have hthere : r.pool.worker w ≠ .gone := (Worker.between_jobs hworker).1
    refine hnone (r.leave (r.pool.setWorker w .gone)).pool fun v => ?_
    rw [Pool.worker, workers_leave]
    exact Pool.mayTake_setWorker hthere rfl v

/-- **After the stop signal** a worker takes one job more if it waits, and none if it is
    anywhere else in its loop. -/
theorem Run.taken_after_stop (hrun : Run r r') (hstopping : r.pool.stopping = true) :
    ∃ more, r'.taken = r.taken ++ more ∧
      ∀ w, (ofWorker w more).length ≤ (r.pool.worker w).mayTake := by
  suffices hboth : r'.pool.stopping = true ∧ ∃ more, r'.taken = r.taken ++ more ∧ ∀ w,
      (ofWorker w more).length + (r'.pool.worker w).mayTake ≤ (r.pool.worker w).mayTake by
    obtain ⟨-, more, htaken, hmore⟩ := hboth
    exact ⟨more, htaken, fun w => Nat.le_trans (Nat.le_add_right ..) (hmore w)⟩
  induction hrun with
  | refl =>
    refine ⟨hstopping, [], (List.append_nil _).symm, fun w => ?_⟩
    exact Nat.le_of_eq (Nat.zero_add _)
  | tail _ hlast ih =>
    obtain ⟨hstill, more, htaken, hmore⟩ := ih
    obtain ⟨a, hact⟩ := hlast
    have hacts := act_cases hact
    obtain ⟨last, htaken', hlast⟩ := hacts.taken hstill
    refine ⟨hacts.stopping hstill, more ++ last, ?_, fun w => ?_⟩
    · rw [htaken', htaken, List.append_assoc]
    · have hbefore := hmore w
      have hafter := hlast w
      rw [ofWorker_append, List.length_append]
      omega

/-- Every step of a worker brings it closer to leaving. -/
theorem Acts.turnsLeft (h : r.Acts a r') (hstopping : r.pool.stopping = true)
    (ha : a.byWorker = true) : r'.pool.turnsLeft < r.pool.turnsLeft := by
  cases h with
  | posted _ => cases ha
  | refused _ => cases ha
  | stopped => cases ha
  | waits _ hopen =>
    rw [hstopping] at hopen
    cases hopen
  | @takes w job queue hworker _ =>
    refine Pool.turnsLeft_setWorker (p := { r.pool with queue }) ?_
    rw [show ({ r.pool with queue } : Pool α).worker w = .waiting from hworker]
    exact Nat.lt_succ_self 2
  | timedOut hworker =>
    refine Pool.turnsLeft_setWorker ?_
    rw [hworker]
    exact Nat.lt_of_lt_of_le (Nat.lt_succ_self 1) (Nat.le_succ 2)
  | finished hworker =>
    refine Pool.turnsLeft_setWorker ?_
    rw [hworker]
    exact Nat.lt_succ_self 1
  | @leaves _ w _ _ hworker =>
    rw [Pool.turnsLeft, workers_leave]
    exact Pool.turnsLeft_setWorker (Worker.between_jobs hworker).2.2

/-- As long as a worker is there, one can take a step. -/
theorem exists_step (h : r.pool.isDeserted = false) :
    ∃ a : PoolAction α, a.byWorker = true ∧ (r.act a).isSome = true := by
  have hsome : ¬∀ w, r.pool.worker w = .gone := fun hall => by
    rw [Pool.isDeserted_iff.mpr hall] at h
    cases h
  obtain ⟨w, hthere⟩ := Classical.not_forall.mp hsome
  cases hworker : r.pool.worker w with
  | looking =>
    refine ⟨.look w, rfl, ?_⟩
    simp only [act, Pool.look, hworker, Option.map_some, Option.isSome_some]
  | waiting =>
    refine ⟨.timeout w, rfl, ?_⟩
    simp only [act, Pool.timeout, hworker, Option.map_some, Option.isSome_some]
  | busy job =>
    refine ⟨.finish w false, rfl, ?_⟩
    simp only [act, Pool.finish, hworker, Option.map_some, Option.isSome_some]
  | gone => exact absurd hworker hthere

/-! ## 5. The accounts of a pool -/

/-- What a ledger says about the jobs of a pool that was made with `config`. -/
structure Accounts (config : PoolConfig) (r : Ledger α) : Prop where
  size : r.pool.size = max 1 config.workers
  /-- Every job that was posted is accounted for once, in the order of posting. -/
  consumed : r.posted = r.taken.map Prod.snd ++ (r.dropped ++ (r.pool.queue ++ r.refused))
  takers : ∀ e ∈ r.taken, e.1 < r.pool.size
  /-- A worker ends the jobs that it takes, one after the other. -/
  hands : ∀ w, ofWorker w r.taken =
    (ofWorker w r.ended).map Prod.fst ++ (r.pool.worker w).job?.toList
  one_worker : r.pool.size = 1 → r.jobsEnded <+: r.posted
  present : r.pool.stopping = false →
    (∀ w, w < r.pool.size → r.pool.worker w ≠ .gone) ∧ r.dropped = [] ∧ r.refused = []
  idle : r.pool.stopping = false → r.pool.queue = [] → (∀ w job, r.pool.worker w ≠ .busy job) →
    r.posted = r.taken.map Prod.snd ∧ r.posted.Perm r.jobsEnded
  after_stop : r.pool.stopping = true → ∀ r', Run r r' →
    ∃ more, r'.taken = r.taken ++ more ∧
      ∀ w, (ofWorker w more).length ≤ (r.pool.worker w).mayTake
  leaving : r.pool.stopping = true →
    (∀ a r', a.byWorker = true → r.act a = some r' → r'.pool.turnsLeft < r.pool.turnsLeft) ∧
      (r.pool.isDeserted = false →
        ∃ a : PoolAction α, a.byWorker = true ∧ (r.act a).isSome = true)
  deserted : r.pool.isDeserted = true →
    r.pool.queue = [] ∧ r.posted = r.taken.map Prod.snd ++ (r.dropped ++ r.refused) ∧
      r.posted.Perm (r.jobsEnded ++ (r.dropped ++ r.refused))

/-- **The accounts of a pool.**  Posts, the stop signal, time-outs and the steps of the
    workers may come in any order, and any job may give up. -/
theorem pool_accounts (hrun : Run (start config) r) : Accounts config r := by
  have h := (balanced_start config).run hrun
  have hsize : r.pool.size = max 1 config.workers := h.size
  refine ⟨hsize, h.order, ?_, h.hands, ?_, ?_, ?_, ?_, ?_, ?_⟩
  · rw [hsize]
    exact h.takers
  · intro hone
    rw [← hsize, hone] at h
    exact h.jobsEnded_prefix
  · intro hopen
    have hpresent := h.staffed.present hopen
    exact ⟨hpresent, h.manned (Pool.isDeserted_of_present (hpresent 0 h.staffed.workers)),
      h.running hopen⟩
  · intro hopen hqueue hidle
    -- as long as the pool is not told to stop, somebody is there to take the jobs
    have hdropped := h.manned
      (Pool.isDeserted_of_present (h.staffed.present hopen 0 h.staffed.workers))
    have horder := h.order
    simp only [hdropped, hqueue, h.running hopen, List.append_nil] at horder
    refine ⟨horder, ?_⟩
    rw [horder]
    refine h.ended_of_idle fun w => ?_
    cases hworker : r.pool.worker w with
    | busy job => exact absurd hworker (hidle w job)
    | _ => rfl
  · exact fun hstopping r' hrun' => hrun'.taken_after_stop hstopping
  · exact fun hstopping => ⟨fun a r' ha hact => (act_cases hact).turnsLeft hstopping ha,
      exists_step⟩
  · intro hdeserted
    have hqueue := h.deserted hdeserted
    have horder := h.order
    rw [hqueue, List.nil_append] at horder
    refine ⟨hqueue, horder, ?_⟩
    rw [horder]
    refine (h.ended_of_idle fun w => ?_).append_right _
    rw [Pool.isDeserted_iff.mp hdeserted w]
    rfl

namespace Sample

/-- Of two workers one is in a job and the other waits when the pool is told to stop.
    The first job gives up, the second one is still taken, and nobody takes the third. -/
def closing : List (PoolAction Nat) :=
  [.look 0, .post 1, .take 0, .look 1, .post 2, .post 3, .stop, .take 1, .finish 0 true, .look 0,
    .finish 1 false, .look 1]

theorem isSome_closing : ((start { workers := 2 }).actAll closing).isSome = true := by
  decide +kernel

def closed : Ledger Nat := ((start { workers := 2 }).actAll closing).get isSome_closing

end Sample

theorem pool_accounts_closed :
    Run (start { workers := 2 }) Sample.closed ∧ Sample.closed.posted = [1, 2, 3] ∧
      Sample.closed.taken = [(0, 1), (1, 2)] ∧ Sample.closed.dropped = [3] ∧
      Sample.closed.pool.isDeserted = true ∧
      Sample.closed.posted.Perm
        (Sample.closed.jobsEnded ++ (Sample.closed.dropped ++ Sample.closed.refused)) := by
  have hrun : Run (start { workers := 2 }) Sample.closed :=
    run_of_actAll (Option.some_get Sample.isSome_closing).symm
  have hdeserted : Sample.closed.pool.isDeserted = true := by decide +kernel
  exact ⟨hrun, by decide +kernel, by decide +kernel, by decide +kernel, hdeserted,
    ((pool_accounts hrun).deserted hdeserted).2.2⟩

end Ledger

end TilePaint
