import CheckHandle.Check.Naming
import CheckHandle.Syntax.Basic

/-!
# Checks and their handlers

What collection finds in a package: the checks that are still to be expanded,
each with its place and its chain of handlers, and the handlers, which have
been taken out of the tree.
-/

namespace CheckHandle

open Std

structure Handler where
  /-- The error identifier as the user wrote it. -/
  errName : String
  /-- The body, in which a reserved name stands for the error. -/
  body : Block
  span : Span

/-- A check and where it stands. -/
structure CheckBinding where
  /-- The call that wraps the checked expression. -/
  id : NodeId
  /-- The number of its file in the package. -/
  file : Nat
  span : Span
  /-- The number of its function. -/
  func : Nat
  block : NodeId
  /-- The statement of `block` that holds the check. -/
  stmt : NodeId
  /-- The numbers of the handlers that apply, the innermost first. -/
  chain : List Nat
deriving DecidableEq, Inhabited

/-- The owners of every node inside a function body. -/
structure Ownership where
  func : TreeMap NodeId Nat := ∅
  block : TreeMap NodeId NodeId := ∅
  stmt : TreeMap NodeId NodeId := ∅

structure Collected where
  /-- The checks that are still to be expanded. -/
  checks : TreeMap NodeId CheckBinding := ∅
  handlers : List Handler := []
  /-- The result types of each function. -/
  funcs : List (List TypeExpr) := []
  /-- The names given out in each block. -/
  scopes : TreeMap NodeId NamingScope := ∅
  ownership : Ownership := {}

namespace Collected

instance : Inhabited Collected := ⟨{}⟩

def pending (c : Collected) : Nat :=
  c.checks.size

end Collected

end CheckHandle
