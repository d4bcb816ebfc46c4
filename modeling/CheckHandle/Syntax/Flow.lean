import CheckHandle.Syntax.Basic

/-!
# Terminating statements

A statement terminates if nothing after it in its list can run. Trimming drops
what follows the first such statement, in nested blocks as well.
-/

namespace CheckHandle

mutual

/-- `return`, a call of `panic`, a block with a terminating statement, or a
conditional both branches of which terminate. -/
def Stmt.isTerminating : Stmt → Bool
  | .ret .. => true
  | .expr _ x => (x.argsOf? "panic").isSome
  | .block _ ⟨_, stmts⟩ => anyTerminating stmts
  | .cond _ _ _ ⟨_, stmts⟩ (some other) => anyTerminating stmts && other.isTerminating
  | _ => false

def anyTerminating : List Stmt → Bool
  | [] => false
  | s :: ss => s.isTerminating || anyTerminating ss

end

mutual

/-- Drops every statement after the first that terminates. -/
def trimStmts : List Stmt → List Stmt
  | [] => []
  | s :: ss =>
    let s := s.trim
    if s.isTerminating then [s] else s :: trimStmts ss

/-- Trims the blocks inside a statement. -/
def Stmt.trim : Stmt → Stmt
  | .block info ⟨inner, stmts⟩ => .block info ⟨inner, trimStmts stmts⟩
  | .cond info init test ⟨inner, stmts⟩ none => .cond info init test ⟨inner, trimStmts stmts⟩ none
  | .cond info init test ⟨inner, stmts⟩ (some other) =>
    .cond info init test ⟨inner, trimStmts stmts⟩ (some other.trim)
  | .loop info init test post ⟨inner, stmts⟩ =>
    .loop info init test post ⟨inner, trimStmts stmts⟩
  | .range info key value define x ⟨inner, stmts⟩ =>
    .range info key value define x ⟨inner, trimStmts stmts⟩
  | .switch info init tag clauses => .switch info init tag (trimClauses clauses)
  | s => s

def trimClauses : List CaseClause → List CaseClause
  | [] => []
  | .case info values ⟨inner, stmts⟩ :: cs =>
    .case info values ⟨inner, trimStmts stmts⟩ :: trimClauses cs
  | .default info ⟨inner, stmts⟩ :: cs =>
    .default info ⟨inner, trimStmts stmts⟩ :: trimClauses cs

end

end CheckHandle
