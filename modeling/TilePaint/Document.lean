/-
  TilePaint/Document.lean
  =======================
  **Documents: sessions of a rendering engine.**

  A document is a handle on one session of an engine.  Every opening starts a
  session of its own, numbered from one and never used again, also when two
  sessions share an engine.  Two handles are the same document when they have the
  same session.

  A paint context names the generation of work that may still publish tiles:
  either a plain number, of which zero stands for no generation at all, or the
  context of all tasks for one session at one scale (`Context.ofTask`).
-/

namespace TilePaint

/-! ### Sessions -/

/-- A handle on a session of an engine. -/
structure Document where
  engine : Nat
  session : Nat
deriving DecidableEq, Repr, Inhabited

def Document.same (a b : Document) : Bool := a.session == b.session

structure Sessions where
  next : Nat := 1
deriving Repr, Inhabited

def Sessions.openOn (s : Sessions) (engine : Nat) : Document × Sessions :=
  (⟨engine, s.next⟩, ⟨s.next + 1⟩)

theorem Sessions.same_openOn {s : Sessions} {d : Document} {engine : Nat}
    (h : d.session < s.next) : d.same (s.openOn engine).1 = false := by
  simp only [Document.same, openOn, beq_eq_false_iff_ne]
  omega

/-! ### Paint contexts -/

/-- The generation of paint work that may publish tiles. -/
inductive Context where
  | number (n : Nat)
  /-- The context of the tasks for a session at a scale, given by its bits. -/
  | paint (session : Nat) (scaleBits : UInt32)
deriving DecidableEq, Repr

namespace Context

def none : Context := .number 0

instance : Inhabited Context := ⟨none⟩

/-- The context of the tasks for a document at a scale.  Scales that differ in a
    bit, such as the two zeros, have different contexts. -/
def ofTask (d : Document) (scale : Float32) : Context := .paint d.session scale.toBits

theorem ofTask_ne_none (d : Document) (scale : Float32) : ofTask d scale ≠ none := nofun

end Context

end TilePaint
