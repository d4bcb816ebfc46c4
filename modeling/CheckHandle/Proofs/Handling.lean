import CheckHandle.Check.Handling
import CheckHandle.Proofs.Fresh
import CheckHandle.Proofs.Relabel

/-!
# The nodes of a handling

Everything in the statements that handle an error is new: the copies of the
handlers, what trimming leaves of them, and the default.
-/

namespace CheckHandle

open List

attribute [local simp] Expr.count

/-! ## Trimming makes no nodes -/

mutual

theorem countStmts_trimStmts_le (i : NodeId) : ∀ ss : List Stmt, countStmts i (trimStmts ss) ≤ countStmts i ss
  | [] => by simp [trimStmts]
  | s :: ss => by
    have h1 := s.count_trim_le i
    have h2 := countStmts_trimStmts_le i ss
    simp only [trimStmts]
    split <;> simp only [countStmts] <;> omega

theorem Stmt.count_trim_le (i : NodeId) : ∀ s : Stmt, s.trim.count i ≤ s.count i
  | .cond _ _ _ ⟨_, stmts⟩ (some other) => by
    have h1 := countStmts_trimStmts_le i stmts
    have h2 := other.count_trim_le i
    simp only [Stmt.trim, Stmt.count, Block.count, countStmt?]
    omega
  | .block _ ⟨_, stmts⟩ | .cond _ _ _ ⟨_, stmts⟩ none | .loop _ _ _ _ ⟨_, stmts⟩ | .range _ _ _ _ _ ⟨_, stmts⟩ => by
    have := countStmts_trimStmts_le i stmts
    simp only [Stmt.trim, Stmt.count, Block.count]
    omega
  | .switch _ _ _ clauses => by
    have := countClauses_trimClauses_le i clauses
    simp only [Stmt.trim, Stmt.count]
    omega
  | .expr .. | .assign .. | .incDec .. | .decl .. | .ret .. | .go .. | .defer .. | .branch .. => by
    simp [Stmt.trim]

theorem countClauses_trimClauses_le (i : NodeId) :
    ∀ cs : List CaseClause, countClauses i (trimClauses cs) ≤ countClauses i cs
  | [] => by simp [trimClauses]
  | .case _ _ ⟨_, stmts⟩ :: cs | .default _ ⟨_, stmts⟩ :: cs => by
    have h1 := countStmts_trimStmts_le i stmts
    have h2 := countClauses_trimClauses_le i cs
    simp only [trimClauses, countClauses, Block.count]
    omega

end

/-! ## New nodes -/

theorem Expr.fresh_draws (name : String) : DrawsAll Expr.count (Expr.fresh name) :=
  .bind freshInfo_draws fun _ => .pure fun i => by simp

/-- Elements that are new one by one are new together. -/
theorem mapM_draws {α : Type} {f : α → Fresh Expr} (hf : ∀ a, DrawsAll Expr.count (f a))
    (as : List α) : DrawsAll countExprs (as.mapM f) := by
  induction as with
  | nil =>
    rw [mapM_nil]
    exact .pure fun i => Nat.le_refl 0
  | cons a as ih =>
    rw [mapM_cons]
    exact .bind (hf a) fun _ => .bind ih fun _ => .pure fun i => by simp [countExprs]

theorem zeroValue_draws (info : TypeInfo) (slot : TypeExpr) : DrawsAll Expr.count (zeroValue info slot) := by
  unfold zeroValue
  extract_lets zero
  clear_value zero
  cases zero
  · exact Expr.fresh_draws _
  · exact .bind freshInfo_draws fun _ => .pure fun i => by simp
  · exact .bind freshInfo_draws fun _ => .pure fun i => by simp
  · exact .bind slot.renumber_draws fun _ => .bind freshInfo_draws fun _ => .pure fun i => by
      simp only [Expr.count, countType?, countExprs]
      omega
  · exact Expr.fresh_draws _

theorem Expr.freshCall_draws (fn : String) (args : List Expr) :
    Draws (fun i => countExprs i args) Expr.count (Expr.freshCall fn args) :=
  .bind (Expr.fresh_draws fn) fun _ => .bind freshInfo_draws fun _ => .pure fun i => by
    simp only [Expr.count]
    omega

theorem panicStmt_draws (errVar : String) : DrawsAll Stmt.count (panicStmt errVar) := by
  refine .andThen (Expr.fresh_draws errVar) fun arg => ?_
  have call : Draws (fun i => arg.count i) Expr.count (Expr.freshCall "panic" [arg]) := by
    intro n x n' h i
    simpa [countExprs] using Expr.freshCall_draws "panic" [arg] h i
  exact .andThen call fun call => .bind freshInfo_draws fun _ => .pure fun i => by
    simp only [Stmt.count]
    omega

theorem defaultHandler_draws (info : TypeInfo) (slots : List TypeExpr) (errVar : String) :
    DrawsAll Stmt.count (defaultHandler info slots errVar) := by
  unfold defaultHandler
  split
  · exact panicStmt_draws errVar
  · split
    · refine .bind (mapM_draws (zeroValue_draws info) _) fun _ =>
        .bind (Expr.fresh_draws errVar) fun _ => .bind freshInfo_draws fun _ => .pure fun i => ?_
      simp only [Stmt.count, countExprs_append, countExprs]
      omega
    · exact panicStmt_draws errVar

theorem Handler.instantiate_draws (h : Handler) (errVar : String) : DrawsAll countStmts (h.instantiate errVar) := by
  refine .bind h.body.renumber_draws fun body => .pure fun i => ?_
  have same : (body.rename handleError errVar).count i = body.count i := by
    rw [← Block.count_term, Block.term_rename, Term.count_relabel_names, Block.count_term]
  show countStmts i (body.rename handleError errVar).stmts ≤ 0 + body.count i
  rw [← same]
  rcases body.rename handleError errVar with ⟨info, stmts⟩
  show countStmts i stmts ≤ 0 + (info.count i + countStmts i stmts)
  omega

/-- Lists of statements, one after the other. -/
def countFlat (i : NodeId) (copies : List (List Stmt)) : Nat := countStmts i copies.flatten

theorem copies_draws (errVar : String) (hs : List Handler) :
    DrawsAll countFlat (hs.mapM fun h => h.instantiate errVar) := by
  induction hs with
  | nil =>
    rw [mapM_nil]
    exact .pure fun i => Nat.le_refl 0
  | cons h hs ih =>
    rw [mapM_cons]
    refine .bind (h.instantiate_draws errVar) fun _ => .bind ih fun _ => .pure fun i => ?_
    simp only [countFlat, flatten_cons, countStmts_append]
    omega

end CheckHandle
