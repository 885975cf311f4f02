/-
  TilePaint/Proofs/FlagSharing.lean
  =================================
  **What the handles of a flag see.**

  Whoever cancels work and whoever does it hold handles of one flag.  Handles are cloned,
  overwritten and bound to new flags in any order, so who shares a flag with whom depends on
  all that happened before.

  What a handle reads does not depend on its own past.  It reads cancelled exactly if an
  operation set the flag that it is bound to now, through whichever handle was bound to that
  flag then (`isSet_run`).  Flags are never unset, so a reading can only go back to unset
  where the handle itself is bound to another flag (`isCancelled_run`).

  All of this rests on one invariant: every handle is bound to a flag of the store (`Bound`).
  Without it a new flag could already have a holder.
-/
import TilePaint.Flag

namespace TilePaint

namespace HandleOp

variable {ν : Type}

/-- The handle whose flag is set by the operation. -/
def cancels? : HandleOp ν → Option ν
  | .create _ => none
  | .clone _ _ => none
  | .set name => some name
  | .cancelAndReset name => some name

/-- The handle that is bound to a flag by the operation. -/
def rebinds? : HandleOp ν → Option ν
  | .create name => some name
  | .clone name _ => some name
  | .set _ => none
  | .cancelAndReset name => some name

end HandleOp

namespace Handles

variable {ν : Type} [DecidableEq ν] {h : Handles ν} {op : HandleOp ν} {ops : List (HandleOp ν)}
  {a b : ν} {f : Flag}

/-! ## 1. Handles and their flags -/

def Live (h : Handles ν) (a : ν) : Prop := ∃ f, h.flag? a = some f

theorem isCancelled_iff :
    h.isCancelled a = true ↔ ∃ f, h.flag? a = some f ∧ h.store.isSet f = true := by
  simp only [isCancelled]
  cases h.flag? a with
  | none => simp
  | some f => simp

theorem same_iff : h.same a b = true ↔ ∃ f, h.flag? a = some f ∧ h.flag? b = some f := by
  simp only [same]
  cases h.flag? a with
  | none => simp
  | some f =>
    cases h.flag? b with
    | none => simp
    | some g => simp [eq_comm]

/-- **Sharing a flag** is an equivalence on the handles that have one. -/
theorem same_equivalence (h : Handles ν) :
    Equivalence fun a b : {a // h.Live a} => h.same a b = true where
  refl := by
    rintro ⟨a, f, ha⟩
    exact same_iff.mpr ⟨f, ha, ha⟩
  symm := by
    intro a b hab
    obtain ⟨f, ha, hb⟩ := same_iff.mp hab
    exact same_iff.mpr ⟨f, hb, ha⟩
  trans := by
    intro a b c hab hbc
    obtain ⟨f, ha, hb⟩ := same_iff.mp hab
    obtain ⟨g, hb', hc⟩ := same_iff.mp hbc
    have hfg : f = g := Option.some.inj (hb.symm.trans hb')
    exact same_iff.mpr ⟨f, ha, hfg ▸ hc⟩

/-! ## 2. One operation -/

/-- Every handle is bound to a flag of the store. -/
def Bound (h : Handles ν) : Prop := ∀ a f, h.flag? a = some f → h.store.Has f

/-- The operation sets the flag: it is applied to a handle that is bound to it. -/
def Sets (h : Handles ν) (op : HandleOp ν) (f : Flag) : Prop :=
  ∃ a, op.cancels? = some a ∧ h.flag? a = some f

@[simp] theorem sets_create : h.Sets (.create a) f ↔ False := by
  simp [Sets, HandleOp.cancels?]

@[simp] theorem sets_clone : h.Sets (.clone a b) f ↔ False := by
  simp [Sets, HandleOp.cancels?]

@[simp] theorem sets_set : h.Sets (.set a) f ↔ h.flag? a = some f := by
  simp [Sets, HandleOp.cancels?]

@[simp] theorem sets_cancelAndReset : h.Sets (.cancelAndReset a) f ↔ h.flag? a = some f := by
  simp [Sets, HandleOp.cancels?]

theorem bound_empty : (empty : Handles ν).Bound := by
  intro a f ha
  cases ha

/-- A handle may be bound to any flag of a store that still has the others. -/
theorem Bound.bind (hb : h.Bound) {store : FlagStore} (hf : store.Has f)
    (hstore : ∀ g, h.store.Has g → store.Has g) : ({ h with store }.bind a f).Bound := by
  intro b g hg
  simp only [flag?_bind] at hg
  split at hg
  · cases hg
    exact hf
  · exact hstore g (hb b g hg)

theorem Bound.apply (hb : h.Bound) (op : HandleOp ν) : (h.apply op).Bound := by
  cases op with
  | create a => exact hb.bind FlagStore.has_fresh fun g hg => hg.fresh
  | clone a source =>
    simp only [Handles.apply]
    cases hsource : h.flag? source with
    | none => exact hb
    | some f => exact hb.bind (hb source f hsource) fun g hg => hg
  | set a =>
    simp only [Handles.apply]
    cases ha : h.flag? a with
    | none => exact hb
    | some f =>
      intro b g hg
      exact (hb b g hg).set
  | cancelAndReset a =>
    simp only [Handles.apply]
    cases ha : h.flag? a with
    | none => exact hb
    | some f => exact hb.bind FlagStore.has_fresh fun g hg => hg.set.fresh

/-- **An operation sets a flag or leaves it alone.** -/
theorem isSet_apply (hb : h.Bound) :
    (h.apply op).store.isSet f = true ↔ h.store.isSet f = true ∨ h.Sets op f := by
  -- the flag of a handle is in the store, so that setting it has an effect
  have hset : ∀ a g, h.flag? a = some g →
      ((h.store.set g).isSet f = true ↔ h.store.isSet f = true ∨ some g = some f) := by
    intro a g ha
    simp only [FlagStore.isSet_set (hb a g ha), Bool.or_eq_true, decide_eq_true_eq,
      Option.some.injEq]
    exact or_comm.trans (or_congr_right eq_comm)
  cases op with
  | create a => simp [Handles.apply]
  | clone a source =>
    simp only [Handles.apply]
    cases h.flag? source with
    | none => simp
    | some g => simp
  | set a =>
    simp only [Handles.apply, sets_set]
    cases ha : h.flag? a with
    | none => simp
    | some g => exact hset a g ha
  | cancelAndReset a =>
    simp only [Handles.apply, sets_cancelAndReset]
    cases ha : h.flag? a with
    | none => simp
    | some g =>
      simp only [store_bind, FlagStore.isSet_fresh]
      exact hset a g ha

/-- **A handle keeps its flag** unless the operation binds this very handle. -/
theorem flag?_apply (hop : op.rebinds? ≠ some a) : (h.apply op).flag? a = h.flag? a := by
  cases op with
  | create b =>
    have hne : a ≠ b := fun heq => hop (heq ▸ rfl)
    simp [Handles.apply, hne]
  | clone b source =>
    have hne : a ≠ b := fun heq => hop (heq ▸ rfl)
    simp only [Handles.apply]
    cases h.flag? source with
    | none => rfl
    | some g => simp [hne]
  | set b =>
    simp only [Handles.apply]
    cases h.flag? b with
    | none => rfl
    | some g => rfl
  | cancelAndReset b =>
    have hne : a ≠ b := fun heq => hop (heq ▸ rfl)
    simp only [Handles.apply]
    cases h.flag? b with
    | none => rfl
    | some g => simp [hne]

/-! ## 3. A whole run -/

/-- At some point of the run, an operation set the flag. -/
def SetDuring (h : Handles ν) (ops : List (HandleOp ν)) (f : Flag) : Prop :=
  ∃ before op after, ops = before ++ op :: after ∧ (h.run before).Sets op f

theorem not_setDuring_nil : ¬h.SetDuring [] f := by
  rintro ⟨before, op, after, heq, -⟩
  simp at heq

theorem setDuring_cons :
    h.SetDuring (op :: ops) f ↔ h.Sets op f ∨ (h.apply op).SetDuring ops f := by
  constructor
  · rintro ⟨before, op', after, heq, hsets⟩
    cases before with
    | nil =>
      cases heq
      exact Or.inl hsets
    | cons first before =>
      cases heq
      exact Or.inr ⟨before, op', after, rfl, hsets⟩
  · rintro (hsets | ⟨before, op', after, rfl, hsets⟩)
    · exact ⟨[], op, ops, rfl, hsets⟩
    · exact ⟨op :: before, op', after, rfl, hsets⟩

theorem Bound.run (hb : h.Bound) (ops : List (HandleOp ν)) : (h.run ops).Bound := by
  induction ops generalizing h with
  | nil => exact hb
  | cons op ops ih => exact ih (hb.apply op)

/-- **A flag is set at the end of a run** exactly if it was at its start, or an operation of the
    run set it. -/
theorem isSet_run (hb : h.Bound) :
    (h.run ops).store.isSet f = true ↔ h.store.isSet f = true ∨ h.SetDuring ops f := by
  induction ops generalizing h with
  | nil => simp [run, not_setDuring_nil]
  | cons op ops ih =>
    apply (ih (hb.apply op)).trans
    simp only [isSet_apply hb, setDuring_cons, or_assoc]

theorem flag?_run (hops : ∀ op ∈ ops, op.rebinds? ≠ some a) :
    (h.run ops).flag? a = h.flag? a := by
  induction ops generalizing h with
  | nil => rfl
  | cons op ops ih =>
    have hrest := ih (h := h.apply op) fun op' hop' => hops op' (List.mem_cons_of_mem _ hop')
    exact hrest.trans (flag?_apply (hops op (List.mem_cons_self ..)))

/-- **A cancelled handle stays cancelled** for as long as it is not bound to another flag. -/
theorem isCancelled_run (hb : h.Bound) (ha : h.isCancelled a = true)
    (hops : ∀ op ∈ ops, op.rebinds? ≠ some a) : (h.run ops).isCancelled a = true := by
  obtain ⟨f, hf, hset⟩ := isCancelled_iff.mp ha
  exact isCancelled_iff.mpr ⟨f, (flag?_run hops).trans hf, (isSet_run hb).mpr (Or.inl hset)⟩

/-! ## 4. Cancelling and rebinding -/

theorem isSet_cancelAndReset (hb : h.Bound) (ha : h.flag? a = some f) {g : Flag} :
    (h.apply (.cancelAndReset a)).store.isSet g = true ↔ h.store.isSet g = true ∨ f = g := by
  simp only [isSet_apply hb, sets_cancelAndReset, ha, Option.some.injEq]

theorem flag?_cancelAndReset (ha : h.flag? a = some f) :
    (h.apply (.cancelAndReset a)).flag? a = some h.store.fresh.1 := by
  simp [Handles.apply, ha, FlagStore.fresh, FlagStore.set]

theorem flag?_cancelAndReset_of_ne (hne : b ≠ a) :
    (h.apply (.cancelAndReset a)).flag? b = h.flag? b := by
  apply flag?_apply
  intro heq
  exact hne (Option.some.inj heq).symm

/-- A new flag has no holder yet. -/
theorem Bound.flag?_ne_fresh (hb : h.Bound) (b : ν) : h.flag? b ≠ some h.store.fresh.1 := by
  intro hb'
  exact FlagStore.not_has_fresh (hb b _ hb')

/-- What is left of the handles of `h` after `a` cancelled its flag and took a new one: the other
    holders of the old flag read cancelled, handles of other flags read what they did, and nobody
    shares the new flag. -/
structure CutOff (h h' : Handles ν) (a : ν) : Prop where
  cancelled : ∀ b, b ≠ a → h.same b a = true → h'.isCancelled b = true
  untouched : ∀ b, h.same b a = false → h'.isCancelled b = h.isCancelled b
  kept : ∀ b, b ≠ a → h'.flag? b = h.flag? b
  live : h'.Live a
  unset : h'.isCancelled a = false
  alone : ∀ b, b ≠ a → h'.same b a = false

theorem cutOff_cancelAndReset (hb : h.Bound) (ha : h.Live a) :
    CutOff h (h.apply (.cancelAndReset a)) a := by
  obtain ⟨f, hf⟩ := ha
  have hnew := flag?_cancelAndReset hf
  refine { cancelled := ?_, untouched := ?_, kept := ?_, live := ⟨_, hnew⟩, unset := ?_,
           alone := ?_ }
  · intro b hne hsame
    obtain ⟨g, hg, ha⟩ := same_iff.mp hsame
    -- a handle that shared the flag keeps it, and it is set now
    have hfg : f = g := Option.some.inj (hf.symm.trans ha)
    exact isCancelled_iff.mpr ⟨g, (flag?_cancelAndReset_of_ne hne).trans hg,
      (isSet_cancelAndReset hb hf).mpr (Or.inr hfg)⟩
  · intro b hother
    have hne : b ≠ a := by
      rintro rfl
      exact Bool.false_ne_true (hother.symm.trans (same_iff.mpr ⟨f, hf, hf⟩))
    apply Bool.eq_iff_iff.mpr
    simp only [isCancelled_iff, flag?_cancelAndReset_of_ne hne, isSet_cancelAndReset hb hf]
    constructor
    · rintro ⟨g, hg, hset | rfl⟩
      · exact ⟨g, hg, hset⟩
      · exact absurd (same_iff.mpr ⟨f, hg, hf⟩) (hother ▸ Bool.false_ne_true)
    · rintro ⟨g, hg, hset⟩
      exact ⟨g, hg, Or.inl hset⟩
  · intro b hne
    exact flag?_cancelAndReset_of_ne hne
  · apply Bool.eq_false_iff.mpr
    intro hcancelled
    obtain ⟨g, hg, hset⟩ := isCancelled_iff.mp hcancelled
    cases hnew.symm.trans hg
    -- the new flag is none of those that were set
    rcases (isSet_cancelAndReset hb hf).mp hset with hold | rfl
    · exact Bool.false_ne_true (FlagStore.isSet_next.symm.trans hold)
    · exact hb.flag?_ne_fresh a hf
  · intro b hne
    apply Bool.eq_false_iff.mpr
    intro hsame
    obtain ⟨g, hg, ha⟩ := same_iff.mp hsame
    cases hnew.symm.trans ha
    exact hb.flag?_ne_fresh b ((flag?_cancelAndReset_of_ne hne).symm.trans hg)

/-- **Cancel flags are one-way under aliasing.**  After any run of operations: to share a flag is
    an equivalence on the handles, and a handle reads cancelled exactly if, earlier in the run, an
    operation was applied to a handle of its flag that set this flag.  In any run from there on, a
    reading goes back from cancelled to unset only if the handle itself is bound to another flag.
    And a handle that cancels and resets cancels the other holders of its flag, and is alone with
    its new one. -/
theorem flags_one_way (hrun : empty.run ops = h) :
    (Equivalence fun a b : {a // h.Live a} => h.same a b = true) ∧
      (∀ a, h.isCancelled a = true ↔ ∃ f, h.flag? a = some f ∧ empty.SetDuring ops f) ∧
      (∀ a more, h.isCancelled a = true → (h.run more).isCancelled a = false →
        ∃ op ∈ more, op.rebinds? = some a) ∧
      ∀ a, h.Live a → CutOff h (h.apply (.cancelAndReset a)) a := by
  have hb : h.Bound := hrun ▸ bound_empty.run ops
  refine ⟨same_equivalence h, ?_, ?_, ?_⟩
  · intro a
    simp only [isCancelled_iff]
    apply exists_congr
    intro f
    apply and_congr_right
    intro _
    subst hrun
    simp only [isSet_run bound_empty]
    exact or_iff_right (by simp [empty, FlagStore.empty, FlagStore.isSet])
  · intro a more hcancelled hunset
    apply Classical.byContradiction
    intro hnone
    have hkept : (h.run more).isCancelled a = true := by
      apply isCancelled_run hb hcancelled
      intro op hop heq
      exact hnone ⟨op, hop, heq⟩
    exact Bool.false_ne_true (hunset.symm.trans hkept)
  · intro a ha
    exact cutOff_cancelAndReset hb ha

/-- Of four handles, the first two share a flag and the last one is cancelled already. -/
theorem flags_one_way_shared :
    let h : Handles Nat := empty.run [.create 0, .clone 1 0, .create 2, .create 3, .set 3]
    h.Live 0 ∧ CutOff h (h.apply (.cancelAndReset 0)) 0 ∧
      h.same 1 0 = true ∧ h.same 2 0 = false ∧ h.isCancelled 3 = true := by
  intro h
  obtain ⟨-, -, -, hcut⟩ := flags_one_way (h := h) rfl
  have hlive : h.Live 0 := ⟨⟨0⟩, by decide⟩
  exact ⟨hlive, hcut 0 hlive, by decide, by decide, by decide⟩

end Handles

end TilePaint
