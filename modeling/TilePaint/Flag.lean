/-
  TilePaint/Flag.lean
  ===================
  **One-way cancel flags and the handles that share them.**

  A flag is a cell of a `FlagStore`; whoever knows the cell's name can read it and
  set it, and nothing ever unsets it.  Work that is started with a flag looks at
  it between its steps and stops early once it is set.

  Several handles may be bound to one flag (`Handles`).  Rebinding a handle is the
  only way for its reading to change back to unset: `Handles.cancelAndReset` sets
  the old flag, which every other holder sees, and binds the handle to a flag
  that nobody else holds.
-/

namespace TilePaint

/-! ### Flags -/

structure Flag where
  id : Nat
deriving DecidableEq, Repr, Inhabited

/-- The flags created so far: cell `n` tells whether flag `n` is set. -/
structure FlagStore where
  cells : Array Bool
deriving Repr, Inhabited

namespace FlagStore

def empty : FlagStore := ⟨#[]⟩

/-- Whether a flag is set.  A flag that was never created is not. -/
def isSet (s : FlagStore) (f : Flag) : Bool := s.cells.getD f.id false

def fresh (s : FlagStore) : Flag × FlagStore := (⟨s.cells.size⟩, ⟨s.cells.push false⟩)

/-- Set a flag.  Setting it again changes nothing. -/
def set (s : FlagStore) (f : Flag) : FlagStore := ⟨s.cells.setIfInBounds f.id true⟩

def Has (s : FlagStore) (f : Flag) : Prop := f.id < s.cells.size

theorem has_fresh {s : FlagStore} : s.fresh.2.Has s.fresh.1 := by
  simp [Has, fresh]

theorem not_has_fresh {s : FlagStore} : ¬ s.Has s.fresh.1 := by
  simp [Has, fresh]

theorem Has.fresh {s : FlagStore} {f : Flag} (h : s.Has f) : s.fresh.2.Has f := by
  simp only [Has, FlagStore.fresh, Array.size_push] at *
  omega

theorem Has.set {s : FlagStore} {f g : Flag} (h : s.Has f) : (s.set g).Has f := by
  simpa only [Has, FlagStore.set, Array.size_setIfInBounds] using h

theorem isSet_of_not_has {s : FlagStore} {f : Flag} (h : ¬s.Has f) : s.isSet f = false := by
  rw [isSet, Array.getD_eq_getD_getElem?, Array.getElem?_eq_none (Nat.le_of_not_lt h)]
  rfl

/-- The next flag is not set yet. -/
theorem isSet_next {s : FlagStore} : s.isSet s.fresh.1 = false := isSet_of_not_has not_has_fresh

@[simp] theorem isSet_fresh {s : FlagStore} {f : Flag} : s.fresh.2.isSet f = s.isSet f := by
  simp only [isSet, fresh, Array.getD_eq_getD_getElem?, Array.getElem?_push]
  split
  · next h => simp [h]
  · rfl

theorem isSet_set {s : FlagStore} {f g : Flag} (h : s.Has f) :
    (s.set f).isSet g = (decide (g = f) || s.isSet g) := by
  cases f with | mk f => cases g with | mk g =>
  simp only [Has] at h
  simp only [isSet, set, Array.getD_eq_getD_getElem?, Array.getElem?_setIfInBounds, Flag.mk.injEq]
  by_cases hg : f = g
  · subst hg
    simp [h]
  · simp [hg, Ne.symm hg]

end FlagStore

/-! ### Handles -/

/-- Named handles, each bound to a flag of the store.  The last binding of a name
    is the one in force. -/
structure Handles (ν : Type) where
  store : FlagStore
  bindings : List (ν × Flag)

inductive HandleOp (ν : Type) where
  | create (name : ν)
  /-- Bind a handle to the flag of another one. -/
  | clone (name source : ν)
  | set (name : ν)
  /-- Set the flag of a handle and bind the handle to a new flag. -/
  | cancelAndReset (name : ν)
deriving Repr

namespace Handles

variable {ν : Type} [DecidableEq ν]

def empty : Handles ν := ⟨.empty, []⟩

def flag? (h : Handles ν) (name : ν) : Option Flag := h.bindings.lookup name

/-- Bind a handle, in the place of its old binding if it has one. -/
def bind (h : Handles ν) (name : ν) (f : Flag) : Handles ν :=
  { h with bindings := (name, f) :: h.bindings.filter (·.1 ≠ name) }

@[simp] theorem flag?_withStore (h : Handles ν) (store : FlagStore) (name : ν) :
    flag? ⟨store, h.bindings⟩ name = h.flag? name := rfl

@[simp] theorem store_bind (h : Handles ν) (name : ν) (f : Flag) :
    (h.bind name f).store = h.store := rfl

theorem lookup_filter_ne {bindings : List (ν × Flag)} {name other : ν} (h : other ≠ name) :
    (bindings.filter (·.1 ≠ name)).lookup other = bindings.lookup other := by
  induction bindings with
  | nil => rfl
  | cons binding rest ih =>
    obtain ⟨key, f⟩ := binding
    by_cases hkey : key = name
    · have hother : (other == key) = false := beq_false_of_ne (hkey ▸ h)
      rw [List.filter_cons_of_neg (by simp [hkey]), ih, List.lookup_cons, hother]
    · rw [List.filter_cons_of_pos (by simp [hkey]), List.lookup_cons, List.lookup_cons, ih]

@[simp] theorem flag?_bind (h : Handles ν) (name other : ν) (f : Flag) :
    (h.bind name f).flag? other = if other = name then some f else h.flag? other := by
  by_cases hname : other = name
  · simp [flag?, bind, hname]
  · have hother : (other == name) = false := beq_false_of_ne hname
    simp only [flag?, bind, List.lookup_cons, hother, lookup_filter_ne hname, hname, if_false]

def isCancelled (h : Handles ν) (name : ν) : Bool :=
  match h.flag? name with
  | some f => h.store.isSet f
  | none => false

def same (h : Handles ν) (a b : ν) : Bool :=
  match h.flag? a, h.flag? b with
  | some f, some g => decide (f = g)
  | _, _ => false

/-- One operation.  An operation on a handle that is not bound does nothing. -/
def apply (h : Handles ν) : HandleOp ν → Handles ν
  | .create name =>
      let (f, store) := h.store.fresh
      { h with store }.bind name f
  | .clone name source =>
      match h.flag? source with
      | some f => h.bind name f
      | none => h
  | .set name =>
      match h.flag? name with
      | some f => { h with store := h.store.set f }
      | none => h
  | .cancelAndReset name =>
      match h.flag? name with
      | some f =>
          let (g, store) := (h.store.set f).fresh
          { h with store }.bind name g
      | none => h

def run (h : Handles ν) (ops : List (HandleOp ν)) : Handles ν := ops.foldl apply h

end Handles

end TilePaint
