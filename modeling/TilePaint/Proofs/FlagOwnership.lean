/-
  TilePaint/Proofs/FlagOwnership.lean
  ===================================
  **Which flags belong to whom.**

  A scheduler holds at most two tasks, each with two flags, and one flag of its
  own.  All of these are different flags of the store.  Its own flag is never set,
  and a flag of a task that it holds is set only if somebody else did that
  (`Owned`).  From one state to the next a task is held on, or dropped for good,
  or it is new, and then so are its flags; a flag of the scheduler that is replaced
  is left behind set (`Later`).

  A call is a sequence of stages.  Each stage keeps the first and obeys the second
  (`Continues`), and so does every run in which others set flags of tasks only
  (`guarded`).  If the client always answers, nothing is queued between calls, and
  the main theorem says what is then known of the one task that is left.
-/
import TilePaint.Proofs.Coalescing

namespace TilePaint

/-! ## 1. The flags of a task -/

namespace Task

def flags (t : Task) : List Flag := [t.skipPaint, t.skipInvalidation]

/-- Task `t` is made with two new flags, which turns the store `old` into `new`. -/
structure Made (old : FlagStore) (t : Task) (new : FlagStore) : Prop where
  ascending : TileRange.Ascending t.ranges
  size : new.cells.size = old.cells.size + 2
  isSet : ∀ f, new.isSet f = old.isSet f
  skipPaint : t.skipPaint.id = old.cells.size
  skipInvalidation : t.skipInvalidation.id = old.cells.size + 1

/-- The flags of the task are the last two that were made. -/
def Newest (t : Task) (flags : FlagStore) : Prop :=
  t.skipPaint.id + 2 = flags.cells.size ∧ t.skipInvalidation.id + 1 = flags.cells.size

/-- A task in the hands of a scheduler whose own flag is `flag`. -/
structure InHand (marked : Flag → Prop) (flags : FlagStore) (flag : Flag) (t : Task) : Prop where
  ascending : TileRange.Ascending t.ranges
  has : ∀ f ∈ t.flags, flags.Has f
  distinct : t.skipPaint ≠ t.skipInvalidation
  own : flag ∉ t.flags
  unset : ∀ f ∈ t.flags, flags.isSet f = true → marked f

variable {t : Task} {old new : FlagStore} {marked marked' : Flag → Prop} {flag f : Flag}

theorem mem_flags : f ∈ t.flags ↔ f = t.skipPaint ∨ f = t.skipInvalidation := by
  simp only [flags, List.mem_cons, List.not_mem_nil, or_false]

theorem isSet_fresh_twice (old : FlagStore) (f : Flag) :
    old.fresh.2.fresh.2.isSet f = old.isSet f := by
  rw [FlagStore.isSet_fresh, FlagStore.isSet_fresh]

theorem made_ofRequest (r : Request) (old : FlagStore) :
    (ofRequest r old).1.Made old (ofRequest r old).2 :=
  ⟨TileRange.ascending_normalize _, size_cells_ofRequest r old, isSet_fresh_twice old, rfl,
    Array.size_push _⟩

theorem made_merge (t : Task) (extra : List TileRange) (c : TileCache) (old : FlagStore) :
    (t.merge extra c old).1.Made old (t.merge extra c old).2 :=
  ⟨TileRange.ascending_normalize _, size_cells_merge t extra c old, isSet_fresh_twice old, rfl,
    Array.size_push _⟩

namespace Made

theorem newest (h : t.Made old new) : t.Newest new := by
  constructor
  · rw [h.skipPaint, h.size]
  · rw [h.skipInvalidation, h.size]

theorem flag_new (h : t.Made old new) (hf : f ∈ t.flags) : ¬old.Has f := by
  rcases mem_flags.mp hf with rfl | rfl
  · exact Nat.not_lt.mpr (Nat.le_of_eq h.skipPaint.symm)
  · exact Nat.not_lt.mpr (by rw [h.skipInvalidation]; omega)

theorem has (h : t.Made old new) (hf : old.Has f) : new.Has f :=
  Nat.lt_of_lt_of_le hf (by rw [h.size]; omega)

theorem inHand (h : t.Made old new) (hflag : old.Has flag) : t.InHand marked new flag := by
  -- both flags have been created for this task, one after the other
  refine ⟨h.ascending, fun f hf => ?_, fun heq => ?_, fun hown => h.flag_new hown hflag,
    fun f hf hset => ?_⟩
  · rcases mem_flags.mp hf with rfl | rfl
    · show _ < _
      rw [h.skipPaint, h.size]
      omega
    · show _ < _
      rw [h.skipInvalidation, h.size]
      omega
  · have hid := congrArg Flag.id heq
    rw [h.skipPaint, h.skipInvalidation] at hid
    omega
  · rw [h.isSet, FlagStore.isSet_of_not_has (h.flag_new hf)] at hset
    cases hset

end Made

namespace InHand

theorem mono (h : t.InHand marked old flag) (hmarked : ∀ f, marked f → marked' f) :
    t.InHand marked' old flag :=
  { h with unset := fun f hf hset => hmarked f (h.unset f hf hset) }

/-- Another task is made. -/
theorem grow (h : t.InHand marked old flag) {other : Task} (hmade : other.Made old new) :
    t.InHand marked new flag :=
  { h with
    has := fun f hf => hmade.has (h.has f hf)
    unset := fun f hf hset => h.unset f hf (by rw [← hmade.isSet]; exact hset) }

/-- A flag is set, which is one of the task only if it is marked. -/
theorem set (h : t.InHand marked old flag) (hf : old.Has f) (hmarked : f ∈ t.flags → marked f) :
    t.InHand marked (old.set f) flag := by
  refine ⟨h.ascending, fun g hg => (h.has g hg).set, h.distinct, h.own, fun g hg hset => ?_⟩
  rw [FlagStore.isSet_set hf, Bool.or_eq_true, decide_eq_true_eq] at hset
  rcases hset with rfl | hset
  · exact hmarked hg
  · exact h.unset g hg hset

end InHand

end Task

namespace Scheduler

variable {marked marked' : Flag → Prop} {s u v : Scheduler} {t : Task} {f : Flag}

/-! ## 2. What is kept and what may change -/

def Holds (s : Scheduler) (t : Task) : Prop := s.current = some t ∨ s.queued = some t

/-- **The flags of a scheduler and of its tasks are its own.** -/
structure Owned (marked : Flag → Prop) (s : Scheduler) : Prop where
  has : s.flags.Has s.flag
  unset : s.flags.isSet s.flag = false
  task : ∀ t, s.Holds t → t.InHand marked s.flags s.flag
  apart : ∀ c q, s.current = some c → s.queued = some q → ∀ f ∈ c.flags, f ∉ q.flags

/-- **What may have changed** when `u` has become `s`. -/
structure Later (u s : Scheduler) : Prop where
  grows : u.flags.cells.size ≤ s.flags.cells.size
  set : ∀ f, u.flags.isSet f = true → s.flags.isSet f = true
  flag : s.flag = u.flag ∨ ¬u.flags.Has s.flag ∧ s.flags.isSet u.flag = true
  task : ∀ t, s.Holds t → u.Holds t ∨ ∀ f ∈ t.flags, ¬u.flags.Has f

structure Continues (marked : Flag → Prop) (u s : Scheduler) : Prop where
  owned : s.Owned marked
  later : Later u s

theorem Owned.mono (h : s.Owned marked) (hmarked : ∀ f, marked f → marked' f) :
    s.Owned marked' :=
  { h with task := fun t ht => (h.task t ht).mono hmarked }

theorem Later.has (h : Later u s) (hf : u.flags.Has f) : s.flags.Has f :=
  Nat.lt_of_lt_of_le hf h.grows

theorem Later.refl (s : Scheduler) : Later s s :=
  ⟨Nat.le_refl _, fun _ => id, Or.inl rfl, fun _ => Or.inl⟩

theorem Later.trans (h : Later u v) (h' : Later v s) : Later u s := by
  refine ⟨Nat.le_trans h.grows h'.grows, fun f hf => h'.set f (h.set f hf), ?_, fun t ht => ?_⟩
  · -- the flag is the same through both, or was given up in one of them
    rcases h'.flag with hsame | ⟨hnew, hset⟩
    · rcases h.flag with hfirst | ⟨hnew, hset⟩
      · exact Or.inl (hsame.trans hfirst)
      · rw [hsame]
        exact Or.inr ⟨hnew, h'.set _ hset⟩
    · refine Or.inr ⟨fun hold => hnew (h.has hold), ?_⟩
      rcases h.flag with hfirst | ⟨-, hfirst⟩
      · rw [← hfirst]
        exact hset
      · exact h'.set _ hfirst
  · rcases h'.task t ht with hheld | hnew
    · exact h.task t hheld
    · exact Or.inr fun f hf hold => hnew f hf (h.has hold)

theorem Owned.refl (h : s.Owned marked) : Continues marked s s := ⟨h, .refl s⟩

theorem Continues.trans (h : Continues marked u v) (h' : Continues marked v s) :
    Continues marked u s :=
  ⟨h'.owned, h.later.trans h'.later⟩

/-! ## 3. Stages of a call -/

namespace Owned

/-- No task is made, and no flag is set. -/
theorem keep (h : s.Owned marked) (hflags : u.flags = s.flags) (hflag : u.flag = s.flag)
    (hholds : ∀ t, u.Holds t → s.Holds t)
    (hboth : ∀ c q, u.current = some c → u.queued = some q →
      s.current = some c ∧ s.queued = some q) : Continues marked s u := by
  refine ⟨⟨?_, ?_, fun t ht => ?_, fun c q hc hq => ?_⟩,
    ⟨?_, fun f hf => ?_, Or.inl hflag, fun t ht => Or.inl (hholds t ht)⟩⟩
  · rw [hflags, hflag]
    exact h.has
  · rw [hflags, hflag]
    exact h.unset
  · rw [hflags, hflag]
    exact h.task t (hholds t ht)
  · obtain ⟨hc, hq⟩ := hboth c q hc hq
    exact h.apart c q hc hq
  · exact Nat.le_of_eq (by rw [hflags])
  · rw [hflags]
    exact hf

theorem congr (h : s.Owned marked) (hsame : SameTasks s u) : Continues marked s u := by
  refine h.keep hsame.flags hsame.flag (fun t ht => ?_) fun c q hc hq => ?_
  · rw [Holds, hsame.current, hsame.queued] at ht
    exact ht
  · rw [hsame.current] at hc
    rw [hsame.queued] at hq
    exact ⟨hc, hq⟩

/-- Task `t` is made and put in the place of one of the two tasks. -/
theorem make (h : s.Owned marked) (hmade : t.Made s.flags u.flags) (hflag : u.flag = s.flag)
    (hholds : ∀ x, u.Holds x → x = t ∨ s.Holds x)
    (hboth : ∀ c q, u.current = some c → u.queued = some q →
      c = t ∧ s.Holds q ∨ s.Holds c ∧ q = t) : Continues marked s u := by
  refine ⟨⟨?_, ?_, fun x hx => ?_, fun c q hc hq f hf hf' => ?_⟩,
    ⟨by rw [hmade.size]; omega, fun f hf => ?_, Or.inl hflag, fun x hx => ?_⟩⟩
  · rw [hflag]
    exact hmade.has h.has
  · rw [hflag, hmade.isSet]
    exact h.unset
  · rw [hflag]
    rcases hholds x hx with rfl | hheld
    · exact hmade.inHand h.has
    · exact (h.task x hheld).grow hmade
  · -- the flags of the new task are in no older store
    rcases hboth c q hc hq with ⟨rfl, hheld⟩ | ⟨hheld, rfl⟩
    · exact hmade.flag_new hf ((h.task q hheld).has f hf')
    · exact hmade.flag_new hf' ((h.task c hheld).has f hf)
  · rw [hmade.isSet]
    exact hf
  · rcases hholds x hx with rfl | hheld
    · exact Or.inr fun f hf => hmade.flag_new hf
    · exact Or.inl hheld

theorem setFlag (h : s.Owned marked) (hf : s.flags.Has f) (hown : f ≠ s.flag)
    (hmarked : ∀ t, s.Holds t → f ∈ t.flags → marked f) :
    Continues marked s { s with flags := s.flags.set f } := by
  refine ⟨⟨h.has.set, ?_, fun t ht => (h.task t ht).set hf (hmarked t ht), h.apart⟩,
    ⟨Nat.le_of_eq Array.size_setIfInBounds.symm, fun g hg => ?_, Or.inl rfl, fun _ => Or.inl⟩⟩
  · show (s.flags.set f).isSet s.flag = false
    rw [FlagStore.isSet_set hf, h.unset, decide_eq_false (Ne.symm hown), Bool.false_or]
  · show (s.flags.set f).isSet g = true
    rw [FlagStore.isSet_set hf, hg, Bool.or_true]

/-- A task that is no longer held is cancelled. -/
theorem cancel (h : s.Owned marked) (ht : ∀ f ∈ t.flags, s.flags.Has f ∧ f ≠ s.flag)
    (hdropped : ∀ x, s.Holds x → ∀ f ∈ t.flags, f ∉ x.flags) :
    Continues marked s { s with flags := t.cancel s.flags } := by
  have hpaint : t.skipPaint ∈ t.flags := Task.mem_flags.mpr (Or.inl rfl)
  have hinvalidation : t.skipInvalidation ∈ t.flags := Task.mem_flags.mpr (Or.inr rfl)
  have hfirst := h.setFlag (ht _ hpaint).1 (ht _ hpaint).2
    fun x hx hf => absurd hf (hdropped x hx _ hpaint)
  exact hfirst.trans (hfirst.owned.setFlag (ht _ hinvalidation).1.set (ht _ hinvalidation).2
    fun x hx hf => absurd hf (hdropped x hx _ hinvalidation))

theorem flag_ne (h : s.Owned marked) (ht : s.Holds t) (hf : f ∈ t.flags) :
    s.flags.Has f ∧ f ≠ s.flag := by
  refine ⟨(h.task t ht).has f hf, fun heq => (h.task t ht).own ?_⟩
  rw [← heq]
  exact hf

theorem queueMerged (h : s.Owned marked) (t : Task) (extra : List TileRange) :
    Continues marked s (s.queueMerged t extra) := by
  refine h.make (Task.made_merge t extra s.cache s.flags) rfl (fun x hx => ?_)
    fun c q hc hq => Or.inr ⟨Or.inl hc, (Option.some.inj hq).symm⟩
  rcases hx with hc | hq
  · exact Or.inr (Or.inl hc)
  · exact Or.inl (Option.some.inj hq).symm

theorem enqueue (h : s.Owned marked) (r : Request) : Continues marked s (s.enqueue r) := by
  refine h.make (Task.made_ofRequest (s.absorb r) s.flags) rfl (fun x hx => ?_)
    fun c q hc hq => Or.inr ⟨Or.inl hc, (Option.some.inj hq).symm⟩
  rcases hx with hc | hq
  · exact Or.inr (Or.inl hc)
  · exact Or.inl (Option.some.inj hq).symm

theorem fold (h : s.Owned marked) (extra : List TileRange) :
    Continues marked s (s.foldExtra extra).foldRemaining.clipQueued :=
  fold_induction extra h.refl fun _ t more hu => hu.trans (hu.owned.queueMerged t more)

/-- The queued task takes the place of the current one. -/
theorem promote (h : s.Owned marked) : Continues marked s s.promote := by
  refine h.keep rfl rfl (fun t ht => ?_) nofun
  rcases ht with hc | hq
  · exact Or.inr hc
  · cases hq

theorem retire (h : s.Owned marked) : Continues marked s s.retire := by
  rcases retire_cases s with ⟨c, q, hc, -, -, hretire⟩ | ⟨-, hretire⟩
  · rw [hretire]
    -- the task that is cancelled shares no flag with the one that is left
    refine h.promote.trans (h.promote.owned.cancel (fun f hf => h.flag_ne (Or.inl hc) hf) ?_)
    rintro x (hx | hx) f hf
    · exact h.apart c x hc hx f hf
    · cases hx
  · rw [hretire]
    exact h.promote

theorem advance (h : s.Owned marked) (hasCache : Bool) (extra : List TileRange) :
    Continues marked s (s.advance hasCache extra) := by
  unfold Scheduler.advance
  split
  · have hfold := h.fold extra
    exact hfold.trans hfold.owned.retire
  · exact h.retire

theorem scheduleNext (h : s.Owned marked) (extra : List TileRange) :
    Continues marked s (s.scheduleNext extra).1 := by
  rcases scheduleNext_cases s extra with ⟨fault, -, hnext⟩ | ⟨hasCache, -, hnext⟩
  · rw [hnext]
    exact h.refl
  · rw [hnext]
    have hadvance := h.advance hasCache extra
    exact hadvance.trans (hadvance.owned.congr (SameTasks.dispatch _))

theorem schedule (h : s.Owned marked) (r : Request) : Continues marked s (s.schedule r).1 := by
  cases hcurrent : s.current with
  | none =>
    rw [schedule_of_none hcurrent]
    have hstart : Continues marked s { s with
        current := some (Task.ofRequest r s.flags).1
        flags := (Task.ofRequest r s.flags).2 } := by
      refine h.make (Task.made_ofRequest r s.flags) rfl (fun x hx => ?_)
        fun c q hc hq => Or.inl ⟨(Option.some.inj hc).symm, Or.inr hq⟩
      rcases hx with hc | hq
      · exact Or.inl (Option.some.inj hc).symm
      · exact Or.inr (Or.inr hq)
    exact hstart.trans (hstart.owned.congr (SameTasks.dispatch _))
  | some c =>
    rw [schedule_of_some hcurrent]
    have henqueue := h.enqueue r
    exact henqueue.trans (henqueue.owned.scheduleNext [])

theorem clear (h : s.Owned marked) : Continues marked s s.clear := by
  have hdrop : Continues marked s { s with current := none, queued := none } :=
    h.keep rfl rfl (fun t ht => by rcases ht with ht | ht <;> cases ht) nofun
  have hnone : ∀ flags x,
      ¬({ s with current := none, queued := none, flags } : Scheduler).Holds x :=
    fun flags x hx => by rcases hx with hx | hx <;> cases hx
  unfold Scheduler.clear
  -- the current task is cancelled first, then the queued one; neither is held any more
  have hcurrent : Continues marked s { s with
      current := none, queued := none, flags := s.current.elim s.flags (·.cancel s.flags) } := by
    cases hc : s.current with
    | none => exact hdrop
    | some c =>
      exact hdrop.trans (hdrop.owned.cancel (fun f hf => h.flag_ne (Or.inl hc) hf)
        fun x hx => absurd hx (hnone s.flags x))
  dsimp only
  cases hq : s.queued with
  | none => exact hcurrent
  | some q =>
    refine hcurrent.trans (hcurrent.owned.cancel (fun f hf => ?_)
      fun x hx => absurd hx (hnone _ x))
    obtain ⟨hhas, hne⟩ := h.flag_ne (Or.inr hq) hf
    exact ⟨hcurrent.later.has hhas, hne⟩

theorem isSet_destroy (h : s.Owned marked) (f : Flag) :
    s.destroy.flags.isSet f = (decide (f = s.flag) || s.flags.isSet f) :=
  FlagStore.isSet_fresh.trans (FlagStore.isSet_set h.has)

theorem not_has_destroy (s : Scheduler) : ¬s.flags.Has s.destroy.flag :=
  Nat.not_lt.mpr (Nat.le_of_eq Array.size_setIfInBounds.symm)

/-- The flag of the scheduler is set, and a new one takes its place. -/
theorem destroy (h : s.Owned marked) : Continues marked s s.destroy := by
  have hnew := not_has_destroy s
  have hsize : s.destroy.flag.id = s.flags.cells.size := Array.size_setIfInBounds
  have hgrown : s.destroy.flags.cells.size = s.flags.cells.size + 1 := by
    show ((s.flags.set s.flag).cells.push false).size = _
    rw [Array.size_push, FlagStore.set, Array.size_setIfInBounds]
  -- the old flag is set and a new one is created, which nobody has
  have hhas : ∀ f, s.flags.Has f → s.destroy.flags.Has f :=
    fun f hf => Nat.lt_of_lt_of_le hf (by omega)
  refine ⟨⟨?_, ?_, fun t ht => ?_, h.apart⟩,
    ⟨by omega, fun f hf => ?_, Or.inr ⟨hnew, ?_⟩, fun t ht => Or.inl ht⟩⟩
  · show _ < _
    omega
  · have hne : s.destroy.flag ≠ s.flag := fun heq => hnew (heq ▸ h.has)
    rw [h.isSet_destroy, decide_eq_false hne, FlagStore.isSet_of_not_has hnew, Bool.false_or]
  · have hold := h.task t ht
    refine ⟨hold.ascending, fun f hf => hhas f (hold.has f hf), hold.distinct,
      fun hown => hnew (hold.has _ hown), fun f hf hset => ?_⟩
    rw [h.isSet_destroy, decide_eq_false (h.flag_ne ht hf).2, Bool.false_or] at hset
    exact hold.unset f hf hset
  · rw [h.isSet_destroy, hf, Bool.or_true]
  · rw [h.isSet_destroy, decide_eq_true rfl, Bool.true_or]

theorem unpause (h : s.Owned marked) (now : Bool) : Continues marked s (s.unpause now).1 := by
  have hopen : Continues marked s { s with paused := false } := h.congr ⟨rfl, rfl, rfl, rfl⟩
  unfold Scheduler.unpause
  dsimp only
  split
  · split
    · exact hopen.trans (hopen.owned.congr (SameTasks.dispatch _))
    · have hnext := hopen.trans hopen.owned.promote
      exact hnext.trans (hnext.owned.congr (SameTasks.dispatch _))
  · exact hopen

/-- **Every call.** -/
theorem perform (h : s.Owned marked) (c : Call) : Continues marked s (s.perform c) := by
  cases c with
  | schedule r => exact h.schedule r
  | scheduleNext extra => exact h.scheduleNext extra
  | clear => exact h.clear
  | destroy => exact h.destroy
  | pause => exact h.congr ⟨rfl, rfl, rfl, rfl⟩
  | unpause now => exact h.unpause now
  | close => exact h.destroy.trans (h.destroy.owned.congr ⟨rfl, rfl, rfl, rfl⟩)

end Owned

/-! ## 4. Runs

The flag of a scheduler is its own secret: others know the flags of its tasks, and
set those when they like. -/

/-- Others set only flags that were made, and never that of the scheduler. -/
def guarded (s : Scheduler) : Action → Prop
  | .setFlag f => s.flags.Has f ∧ f ≠ s.flag
  | _ => True

variable {allowed allowed' : Scheduler → Action → Prop} {s' : Scheduler} {a : Action}

theorem Owned.step (h : s.Owned marked) (ha : guarded s a) (hact : s.act a = some s') :
    Continues (fun f => marked f ∨ a = .setFlag f) s s' := by
  have hs : s.Owned fun f => marked f ∨ a = .setFlag f := h.mono fun _ => Or.inl
  rcases act_tasks hact with ⟨c, -, rfl⟩ | ⟨f, rfl, rfl⟩ | hsame
  · exact hs.perform c
  · exact hs.setFlag ha.1 ha.2 fun _ _ _ => Or.inr rfl
  · exact hs.congr hsame

theorem Run.mono (h : ∀ s a, allowed s a → allowed' s a) (hrun : Run allowed s s') :
    Run allowed' s s' := by
  refine Relation.ReflTransGen.mono (fun u u' hstep => ?_) _ _ hrun
  obtain ⟨a, ha, hact⟩ := hstep
  exact ⟨a, h u a ha, hact⟩

theorem Reachable.run (hs : Reachable allowed s) (hrun : Run allowed s u) :
    Reachable allowed u := by
  obtain ⟨cache, client, config, hstart⟩ := hs
  exact ⟨cache, client, config, hstart.trans hrun⟩

/-- **Runs**, from any state whose flags are in order. -/
theorem Owned.run (h : u.Owned marked) (hrun : Run guarded u s) :
    Continues (fun _ => True) u s := by
  induction hrun with
  | refl => exact (h.mono fun _ _ => trivial).refl
  | tail _ hlast ih =>
    obtain ⟨a, ha, hact⟩ := hlast
    have hstep := ih.owned.step ha hact
    exact ih.trans ⟨hstep.owned.mono fun _ _ => trivial, hstep.later⟩

theorem owned_create (cache : TileCache) (client : Client) (config : PoolConfig) :
    (create cache client config).Owned marked := by
  refine ⟨FlagStore.has_fresh, ?_, fun t ht => ?_, nofun⟩
  · exact FlagStore.isSet_fresh.trans FlagStore.isSet_next
  · rcases ht with ht | ht <;> cases ht

theorem owned_of_reachable (hs : Reachable guarded s) : s.Owned fun _ => True := by
  obtain ⟨cache, client, config, hrun⟩ := hs
  have hstart : (create cache client config).Owned fun _ => True := owned_create cache client config
  exact (hstart.run hrun).owned

/-- A task is held without a break, or never again. -/
theorem Owned.holds_between (hu : u.Owned marked) (huv : Run guarded u v) (hvs : Run guarded v s)
    (hfirst : u.Holds t) (hlast : s.Holds t) : v.Holds t := by
  have hv := hu.run huv
  rcases (hv.owned.run hvs).later.task t hlast with hheld | hnew
  · exact hheld
  · have hf : t.skipPaint ∈ t.flags := Task.mem_flags.mpr (Or.inl rfl)
    exact absurd (hv.later.has ((hu.task t hfirst).has _ hf)) (hnew _ hf)

/-- A run, with the actions on its way, the earliest first. -/
inductive History (allowed : Scheduler → Action → Prop) (start : Scheduler) :
    List Action → Scheduler → Prop where
  | start : History allowed start [] start
  | step {actions : List Action} {u u' : Scheduler} {a : Action}
      (run : History allowed start actions u) (ok : allowed u a) (act : u.act a = some u') :
      History allowed start (actions ++ [a]) u'

namespace History

variable {start : Scheduler} {actions : List Action}

theorem run (h : History allowed start actions s) : Run allowed start s := by
  induction h with
  | start => exact .refl
  | step _ ok act ih => exact ih.tail ⟨_, ok, act⟩

theorem owned (h : History allowed start actions s) (hguarded : ∀ s a, allowed s a → guarded s a)
    (hstart : start.Owned fun _ => False) : s.Owned fun f => .setFlag f ∈ actions := by
  induction h with
  | start => exact hstart.mono fun _ => False.elim
  | step _ ok act ih =>
    refine (ih.step (hguarded _ _ ok) act).owned.mono fun f hf => ?_
    rcases hf with hf | rfl
    · exact List.mem_append_left _ hf
    · exact List.mem_append_right _ (List.mem_singleton_self _)

/-- What was set stays set. -/
theorem isSet_of_mem (h : History allowed start actions s)
    (hguarded : ∀ s a, allowed s a → guarded s a) (hstart : start.Owned fun _ => False)
    (hf : .setFlag f ∈ actions) : s.flags.isSet f = true := by
  induction h with
  | start => cases hf
  | step hrun ok act ih =>
    rcases List.mem_append.mp hf with hf | hf
    · exact ((hrun.owned hguarded hstart).step (hguarded _ _ ok) act).later.set f (ih hf)
    · obtain rfl := List.mem_singleton.mp hf
      cases act
      show (FlagStore.set _ f).isSet f = true
      rw [FlagStore.isSet_set (hguarded _ _ ok).1, decide_eq_true rfl, Bool.true_or]

end History

/-! ## 5. The newest task

If nothing is queued when a call begins, the task that it makes current is the one
that it made last. -/

def QueuedNewest (s : Scheduler) : Prop := ∀ q, s.queued = some q → q.Newest s.flags

theorem queuedNewest_queueMerged (s : Scheduler) (t : Task) (extra : List TileRange) :
    (s.queueMerged t extra).QueuedNewest := by
  intro q hq
  cases hq
  exact (Task.made_merge t extra s.cache s.flags).newest

theorem queuedNewest_enqueue (s : Scheduler) (r : Request) : (s.enqueue r).QueuedNewest := by
  intro q hq
  cases hq
  exact (Task.made_ofRequest (s.absorb r) s.flags).newest

theorem size_flags_retire (s : Scheduler) :
    s.retire.flags.cells.size = s.flags.cells.size := by
  rcases retire_cases s with ⟨c, q, -, -, -, hretire⟩ | ⟨-, hretire⟩
  · rw [hretire]
    exact c.size_cells_cancel s.flags
  · rw [hretire]
    rfl

namespace QueuedNewest

theorem fold (h : s.QueuedNewest) (extra : List TileRange) :
    (s.foldExtra extra).foldRemaining.clipQueued.QueuedNewest :=
  fold_induction extra h fun u t more _ => queuedNewest_queueMerged u t more

theorem retire (h : s.QueuedNewest) {c : Task} (hc : s.retire.current = some c) :
    c.Newest s.retire.flags := by
  rw [current_retire] at hc
  rw [Task.Newest, size_flags_retire]
  exact h c hc

theorem advance (h : s.QueuedNewest) {hasCache : Bool} {extra : List TileRange} {c : Task}
    (hc : (s.advance hasCache extra).current = some c) :
    c.Newest (s.advance hasCache extra).flags := by
  cases hasCache with
  | true => exact (h.fold extra).retire hc
  | false => exact h.retire hc

end QueuedNewest

theorem newest_scheduleNext {hasCache : Bool} (h : s.QueuedNewest)
    (hclient : s.clientCache = .ok hasCache) {extra : List TileRange}
    (ht : (s.scheduleNext extra).1.current = some t) :
    t.Newest (s.scheduleNext extra).1.flags := by
  have hsame := SameTasks.dispatch (s.advance hasCache extra)
  rw [scheduleNext_of_client hclient] at ht ⊢
  rw [hsame.current] at ht
  rw [hsame.flags]
  exact h.advance ht

theorem newest_perform {hasCache : Bool} (hq : s.queued = none)
    (hclient : s.clientCache = .ok hasCache) {c : Call} (ht : (s.perform c).current = some t) :
    s.current = some t ∨ t.Newest (s.perform c).flags := by
  have hqueued : s.QueuedNewest := by
    intro q hsome
    rw [hq] at hsome
    cases hsome
  cases c with
  | schedule r =>
    right
    simp only [perform] at ht ⊢
    -- the first task is made from the request; later ones come out of the queue
    cases hcurrent : s.current with
    | none =>
      have hsame := SameTasks.dispatch { s with
        current := some (Task.ofRequest r s.flags).1
        flags := (Task.ofRequest r s.flags).2 }
      rw [schedule_of_none hcurrent, hsame.current] at ht
      rw [schedule_of_none hcurrent, hsame.flags]
      cases ht
      exact (Task.made_ofRequest r s.flags).newest
    | some c =>
      rw [schedule_of_some hcurrent] at ht ⊢
      exact newest_scheduleNext (queuedNewest_enqueue s r) hclient ht
  | scheduleNext extra => exact Or.inr (newest_scheduleNext hqueued hclient ht)
  | clear => cases ht
  | destroy => exact Or.inl ht
  | pause => exact Or.inl ht
  | unpause now =>
    left
    simp only [perform, unpause] at ht
    split at ht
    · split at ht
      · exact (SameTasks.dispatch { s with paused := false }).current.symm.trans ht
      · -- nothing is queued, so no task can be promoted
        have hnone := (SameTasks.dispatch
          { s with paused := false, current := s.queued, queued := none }).current.symm.trans ht
        rw [hq] at hnone
        cases hnone
    · exact ht
  | close => exact Or.inl ht

/-! ## 6. Between calls -/

/-- The client answers, and others set flags of tasks only. -/
def orderly (s : Scheduler) (a : Action) : Prop := answered s a ∧ guarded s a

/-- What is known of the current task `c` of `s`, after the actions of a history from
    `start`. -/
structure SoleTask (start : Scheduler) (actions : List Action) (s : Scheduler) (c : Task) :
    Prop where
  ascending : TileRange.Ascending c.ranges
  disjoint : c.ranges.Pairwise fun a b => ∀ i, i ∈ a → i ∉ b
  wellFormed : Run wellFormed start s → TileRange.AllWellFormed c.ranges
  distinct : c.skipPaint ≠ c.skipInvalidation
  /-- The scheduler itself sets none of the two. -/
  set_iff : ∀ f ∈ c.flags, s.flags.isSet f = true ↔ .setFlag f ∈ actions
  /-- A call has made the task, with flags that were not there before the call and are
      the last two that the call made. -/
  made : ∃ u v call, Run orderly start u ∧ u.act (.call call) = some v ∧ Run orderly v s ∧
    (∀ f ∈ c.flags, ¬u.flags.Has f) ∧ c.Newest v.flags ∧ v.current = some c
  flag : ∀ u, Run orderly start u → Run orderly u s → u.flag ∉ c.flags
  other : ∀ u t, Run orderly start u → Run orderly u s → u.Holds t → t ≠ c →
    ∀ f ∈ t.flags, f ∉ c.flags
  /-- A task that was dropped, cancelled or not, does not come back. -/
  unbroken : ∀ u v, Run orderly start u → Run orderly u v → Run orderly v s →
    u.Holds c → v.current = some c

theorem guarded_of_orderly (s : Scheduler) (a : Action) (h : orderly s a) : guarded s a := h.2

theorem answered_of_orderly (s : Scheduler) (a : Action) (h : orderly s a) : answered s a := h.1

section Between

variable {cache : TileCache} {client : Client} {config : PoolConfig} {c : Task}

theorem Reachable.mono (h : ∀ s a, allowed s a → allowed' s a) (hs : Reachable allowed s) :
    Reachable allowed' s := by
  obtain ⟨cache, client, config, hrun⟩ := hs
  exact ⟨cache, client, config, hrun.mono h⟩

theorem reachable_of_run (hrun : Run allowed (create cache client config) s) :
    Reachable allowed s := ⟨cache, client, config, hrun⟩

/-- At an earlier state the task is current as well, or its flags are not there yet. -/
theorem current_or_new (hu : Reachable orderly u) (hrun : Run orderly u s)
    (hc : s.current = some c) :
    u.queued = none ∧ (u.Owned fun _ => True) ∧
      (u.current = some c ∨ ∀ f ∈ c.flags, ¬u.flags.Has f) := by
  have hnone := queued_eq_none_of_reachable (hu.mono answered_of_orderly)
  have howned := owned_of_reachable (hu.mono guarded_of_orderly)
  refine ⟨hnone, howned, ?_⟩
  rcases (howned.run (hrun.mono guarded_of_orderly)).later.task c (Or.inl hc) with
    (hheld | hheld) | hnew
  · exact Or.inl hheld
  · rw [hnone] at hheld
    cases hheld
  · exact Or.inr hnew

/-- **Where the current task comes from.** -/
theorem made_of_run (hrun : Run orderly (create cache client config) s)
    (hc : s.current = some c) :
    ∃ u v call, Run orderly (create cache client config) u ∧ u.act (.call call) = some v ∧
      Run orderly v s ∧ (∀ f ∈ c.flags, ¬u.flags.Has f) ∧ c.Newest v.flags ∧
      v.current = some c := by
  induction hrun with
  | refl => cases hc
  | @tail u v hrun hlast ih =>
    -- go back to the step after which the task was there for the first time
    by_cases hheld : u.current = some c
    · obtain ⟨u', v', call, hu', hcall, hv', hmade⟩ := ih hheld
      exact ⟨u', v', call, hu', hcall, hv'.tail hlast, hmade⟩
    · obtain ⟨hqueued, -, hold | hnew⟩ :=
        current_or_new (reachable_of_run hrun) (.single hlast) hc
      · exact absurd hold hheld
      obtain ⟨a, ha, hact⟩ := hlast
      rcases act_tasks hact with ⟨call, rfl, rfl⟩ | ⟨f, rfl, rfl⟩ | hsame
      · obtain ⟨hasCache, hclient⟩ := ha.1 call rfl
        rcases newest_perform hqueued hclient hc with hold | hnewest
        · exact absurd hold hheld
        · exact ⟨u, _, call, hrun, hact, .refl, hnew, hnewest, hc⟩
      · exact absurd hc hheld
      · exact absurd (hsame.current.symm.trans hc) hheld

/-- **A scheduler between two calls.**  Nothing is queued, so a request takes over
    nothing from a queued task; the scheduler's own flag is unset; and the flags of the one
    task that may be left belong to it alone. -/
theorem sole_task_of_history {actions : List Action}
    (hrun : History orderly (create cache client config) actions s) :
    s.queued = none ∧ (∀ r, s.absorb r = r) ∧ s.flags.isSet s.flag = false ∧
      ∀ c, s.current = some c → SoleTask (create cache client config) actions s c := by
  have hs := reachable_of_run hrun.run
  have hqueued := queued_eq_none_of_reachable (hs.mono answered_of_orderly)
  have howned := hrun.owned guarded_of_orderly (owned_create cache client config)
  refine ⟨hqueued, fun r => ?_, howned.unset, fun c hc => ?_⟩
  · rw [absorb_eq, leftover_eq_nil hqueued]
    simp only [List.flatMap_nil, List.append_nil, List.any_nil, Bool.or_false]
  have htask := howned.task c (Or.inl hc)
  refine ⟨htask.ascending, htask.ascending.imp fun hlt i hi hi' => ?_, fun hformed => ?_,
    htask.distinct, fun f hf => ?_, made_of_run hrun.run hc, fun u hu hus hflag => ?_,
    fun u t hu hus ht hne f hf hf' => ?_, fun u v hu huv hvs hheld => ?_⟩
  · exact Nat.lt_irrefl _ (Nat.lt_of_le_of_lt hi.2 (Nat.lt_of_lt_of_le hlt hi'.1))
  · exact ((tasksKept_of_reachable (reachable_of_run hformed)).current c hc).wellFormed
  · exact ⟨htask.unset f hf,
      hrun.isSet_of_mem guarded_of_orderly (owned_create cache client config)⟩
  · -- a task that is made later has flags that nobody could name before
    obtain ⟨-, hown, hheld | hnew⟩ := current_or_new (reachable_of_run hu) hus hc
    · exact (hown.task c (Or.inl hheld)).own hflag
    · exact hnew _ hflag hown.has
  · obtain ⟨hnone, hown, hheld | hnew⟩ := current_or_new (reachable_of_run hu) hus hc
    · rcases ht with ht | ht
      · rw [hheld] at ht
        exact hne (Option.some.inj ht).symm
      · rw [hnone] at ht
        cases ht
    · exact hnew f hf' ((hown.task t ht).has f hf)
  · obtain ⟨hnone, -, -⟩ := current_or_new (reachable_of_run (hu.trans huv)) hvs hc
    have hown := owned_of_reachable (reachable_of_run (hu.mono guarded_of_orderly))
    rcases hown.holds_between (huv.mono guarded_of_orderly) (hvs.mono guarded_of_orderly) hheld
        (Or.inl hc) with hcurrent | hq
    · exact hcurrent
    · rw [hnone] at hq
      cases hq

end Between

theorem History.after {start : Scheduler} {actions : List Action}
    (h : History allowed start actions s) (ok : allowed s a) (hact : (s.act a).isSome) :
    History allowed start (actions ++ [a]) (s.after a) :=
  h.step ok (act_after hact)

/-- Tile 2 is requested while tile 0 is current; then somebody keeps the new task from
    painting. -/
def Sample.touched : Scheduler :=
  (first.after (.call (.schedule (requestOf [⟨2, 2⟩])))).after (.setFlag ⟨7⟩)

theorem sole_task_of_history_touched :
    ∃ c, Sample.touched.current = some c ∧ c.flags = [⟨7⟩, ⟨8⟩] ∧
      SoleTask Sample.idle
        [.call (.schedule (Sample.requestOf [⟨0, 0⟩])),
          .call (.schedule (Sample.requestOf [⟨2, 2⟩])), .setFlag ⟨7⟩] Sample.touched c := by
  have hfirst : History orderly Sample.idle _ Sample.first :=
    History.start.after (a := .call (.schedule (Sample.requestOf [⟨0, 0⟩])))
      ⟨fun _ _ => ⟨true, rfl⟩, trivial⟩ (by decide +kernel)
  have hsecond := hfirst.after (a := .call (.schedule (Sample.requestOf [⟨2, 2⟩])))
    ⟨fun _ _ => ⟨true, rfl⟩, trivial⟩ (by decide +kernel)
  have htouched := hsecond.after (a := .setFlag ⟨7⟩)
    ⟨nofun, show _ < _ by decide +kernel, by decide +kernel⟩ rfl
  obtain ⟨-, -, -, hsole⟩ := sole_task_of_history htouched
  have hflags : Sample.touched.current.map Task.flags = some [⟨7⟩, ⟨8⟩] := by decide +kernel
  obtain ⟨c, hc, hflags⟩ := Option.map_eq_some_iff.mp hflags
  exact ⟨c, hc, hflags, hsole c hc⟩

end Scheduler

end TilePaint
