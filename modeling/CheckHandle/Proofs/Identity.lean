import Mathlib
import CheckHandle.Syntax.Renumber

/-!
# Identities of nodes

How often an identity stands in a tree. A tree has distinct identities if each
stands in it at most once; counts add up along the tree, so that what is drawn
from a counter can be accounted for: an identity that the counter has not
given out yet is `spare`, and drawing uses it up.
-/

namespace CheckHandle

/-- An identity that the counter `next` has not given out. -/
def spare (next i : Nat) : Nat :=
  if next ≤ i then 1 else 0

theorem spare_le_one (next i : Nat) : spare next i ≤ 1 := by
  unfold spare
  split <;> omega

theorem spare_eq_zero {next i : Nat} (h : i < next) : spare next i = 0 := if_neg (by omega)

theorem spare_succ (next i : Nat) : (if next = i then 1 else 0) + spare (next + 1) i = spare next i := by
  unfold spare
  split <;> split <;> split <;> omega

/-- Counters of which the later has no more to give only go up. -/
theorem le_of_spare {next next' : Nat} (h : spare next' next' ≤ spare next next') : next ≤ next' := by
  unfold spare at h
  rw [if_pos .refl] at h
  split at h <;> omega

/-! ## Counts -/

def Info.count (i : NodeId) (info : Info) : Nat :=
  if info.id = i then 1 else 0

theorem Info.count_pos {i : NodeId} {info : Info} : 0 < info.count i ↔ info.id = i := by
  unfold Info.count
  split <;> simp_all

theorem Info.count_self (info : Info) : info.count info.id = 1 := if_pos rfl

def Ident.count (i : NodeId) (x : Ident) : Nat := x.info.count i

def countIdents (i : NodeId) : List Ident → Nat
  | [] => 0
  | x :: xs => x.count i + countIdents i xs

mutual

def TypeExpr.count (i : NodeId) : TypeExpr → Nat
  | .name info _ _ => info.count i
  | .pointer info elem => info.count i + elem.count i
  | .slice info elem => info.count i + elem.count i
  | .array info len elem => info.count i + countExpr? i len + elem.count i
  | .map info key value => info.count i + key.count i + value.count i
  | .func info sig => info.count i + sig.count i
  | .struct info fields => info.count i + countFields i fields
  | .interface info elems => info.count i + countFields i elems

def countType? (i : NodeId) : Option TypeExpr → Nat
  | none => 0
  | some ty => ty.count i

def Field.count (i : NodeId) : Field → Nat
  | ⟨info, names, ty, _, _⟩ => info.count i + countIdents i names + ty.count i

def countFields (i : NodeId) : List Field → Nat
  | [] => 0
  | f :: fs => f.count i + countFields i fs

def Signature.count (i : NodeId) : Signature → Nat
  | ⟨params, results⟩ => countFields i params + countFields i results

def Expr.count (i : NodeId) : Expr → Nat
  | .ident info _ => info.count i
  | .lit info _ _ => info.count i
  | .composite info ty elts => info.count i + countType? i ty + countExprs i elts
  | .funcLit info sig body => info.count i + sig.count i + body.count i
  | .paren info x => info.count i + x.count i
  | .selector info x sel => info.count i + x.count i + sel.count i
  | .index info x index => info.count i + x.count i + index.count i
  | .slice info x lo hi max =>
    info.count i + x.count i + countExpr? i lo + countExpr? i hi + countExpr? i max
  | .typeAssert info x ty => info.count i + x.count i + ty.count i
  | .call info fn args _ => info.count i + fn.count i + countExprs i args
  | .unary info _ x => info.count i + x.count i
  | .binary info _ x y => info.count i + x.count i + y.count i
  | .keyValue info key value => info.count i + key.count i + value.count i
  | .type info ty => info.count i + ty.count i

def countExpr? (i : NodeId) : Option Expr → Nat
  | none => 0
  | some x => x.count i

def countExprs (i : NodeId) : List Expr → Nat
  | [] => 0
  | x :: xs => x.count i + countExprs i xs

def Block.count (i : NodeId) : Block → Nat
  | ⟨info, stmts⟩ => info.count i + countStmts i stmts

def Stmt.count (i : NodeId) : Stmt → Nat
  | .expr info x => info.count i + x.count i
  | .assign info lhs _ rhs => info.count i + countExprs i lhs + countExprs i rhs
  | .incDec info x _ => info.count i + x.count i
  | .decl info d => info.count i + d.count i
  | .ret info results => info.count i + countExprs i results
  | .cond info init test body other =>
    info.count i + countStmt? i init + test.count i + body.count i + countStmt? i other
  | .loop info init test post body =>
    info.count i + countStmt? i init + countExpr? i test + countStmt? i post + body.count i
  | .range info key value _ x body =>
    info.count i + countExpr? i key + countExpr? i value + x.count i + body.count i
  | .switch info init tag clauses =>
    info.count i + countStmt? i init + countExpr? i tag + countClauses i clauses
  | .block info body => info.count i + body.count i
  | .go info call => info.count i + call.count i
  | .defer info call => info.count i + call.count i
  | .branch info _ => info.count i

def countStmt? (i : NodeId) : Option Stmt → Nat
  | none => 0
  | some s => s.count i

def countStmts (i : NodeId) : List Stmt → Nat
  | [] => 0
  | s :: ss => s.count i + countStmts i ss

def countClauses (i : NodeId) : List CaseClause → Nat
  | [] => 0
  | .case info values body :: cs =>
    info.count i + countExprs i values + body.count i + countClauses i cs
  | .default info body :: cs => info.count i + body.count i + countClauses i cs

def Decl.count (i : NodeId) : Decl → Nat
  | .types specs => countTypeSpecs i specs
  | .vars specs => countValueSpecs i specs
  | .consts specs => countValueSpecs i specs

def countTypeSpecs (i : NodeId) : List TypeSpec → Nat
  | [] => 0
  | ⟨info, name, _, ty⟩ :: specs =>
    info.count i + name.count i + ty.count i + countTypeSpecs i specs

def countValueSpecs (i : NodeId) : List ValueSpec → Nat
  | [] => 0
  | ⟨info, names, ty, values⟩ :: specs =>
    info.count i + countIdents i names + countType? i ty + countExprs i values + countValueSpecs i specs

end

theorem countExprs_append (i : NodeId) (xs ys : List Expr) :
    countExprs i (xs ++ ys) = countExprs i xs + countExprs i ys := by
  induction xs with
  | nil => simp [countExprs]
  | cons x xs ih => simp [countExprs, ih, Nat.add_assoc]

theorem countStmts_append (i : NodeId) (ss ts : List Stmt) :
    countStmts i (ss ++ ts) = countStmts i ss + countStmts i ts := by
  induction ss with
  | nil => simp [countStmts]
  | cons s ss ih => simp [countStmts, ih, Nat.add_assoc]

end CheckHandle
