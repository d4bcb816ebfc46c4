import Mathlib
import CheckHandle.Checker.Pass

/-!
# Local scopes

The checker opens and closes scopes in step with the syntax, and touches no scope
below the innermost. So local names end with their scopes.
-/

namespace CheckHandle

open List

/-- How many of the scopes around it a statement can add names to: none, if it
opens a scope itself. -/
def Stmt.reach : Stmt → Nat
  | .cond .. | .loop .. | .range .. | .switch .. | .block .. => 0
  | _ => 1

/-- What is around the local scopes. -/
def Checker.outer (c : Checker) : StubSet × String × String × Scope × Scope :=
  (c.stubs, c.package, c.file, c.fileScope, c.packageScope)

/-- From one state to another: there are `n` scopes on those in `below`, and what
is around the local scopes is the same. -/
structure Moved (n : Nat) (below : List Scope) (c c' : Checker) : Prop where
  outer : c'.outer = c.outer
  locals : ∃ inner, c'.locals = inner ++ below ∧ inner.length = n

/-- The step leads from `n` scopes to `m`, and touches nothing below them. -/
def Leads {α : Type} (n m : Nat) (step : CheckM α) : Prop :=
  ∀ c inner below, c.locals = inner ++ below → inner.length = n → Moved m below c (step c).2

variable {α β : Type} {k m n : Nat} {step : CheckM α} {below : List Scope} {c c' c'' : Checker}
  {change : Checker → Checker} {id : NodeId}

theorem Moved.trans (h : Moved m below c c') (h' : Moved n below c' c'') : Moved n below c c'' :=
  ⟨h'.outer.trans h.outer, h'.locals⟩

namespace Leads

theorem pure (a : α) : Leads n n (Pure.pure a : CheckM α) :=
  fun _ inner _ locals length => ⟨rfl, ⟨inner, locals, length⟩⟩

theorem bind {next : α → CheckM β} (h : Leads n m step) (h' : ∀ a, Leads m k (next a)) :
    Leads n k (step >>= next) := by
  intro c inner below locals length
  have first := h c inner below locals length
  obtain ⟨inner', locals', length'⟩ := first.locals
  exact first.trans (h' _ _ _ _ locals' length')

theorem get {next : Checker → CheckM β} (h : ∀ c, Leads n m (next c)) : Leads n m (MonadState.get >>= next) :=
  fun c => h c c

/-- A change that leaves the scopes alone. -/
theorem record (outer : ∀ c, (change c).outer = c.outer)
    (locals : ∀ c, (change c).locals = c.locals) : Leads n n (modify change) :=
  fun c inner _ hlocals length => ⟨outer c, ⟨inner, (locals c).trans hlocals, length⟩⟩

theorem diagnose (span : Span) (message : String) : Leads n n (modify (·.diagnose span message)) :=
  record (fun _ => rfl) fun _ => rfl

theorem recordUse (id : NodeId) (object : Object) : Leads n n (modify (·.recordUse id object)) :=
  record (fun _ => rfl) fun _ => rfl

theorem recordType (ty : Ty) : Leads n n (modify (·.recordType id ty)) := record (fun _ => rfl) fun _ => rfl

theorem push : Leads n (n + 1) (modify Checker.pushScope) := by
  intro c inner below locals length
  refine ⟨rfl, ⟨[] :: inner, ?_, by simp [length]⟩⟩
  show [] :: c.locals = _
  rw [locals, cons_append]

theorem pop : Leads (n + 1) n (modify Checker.popScope) := by
  intro c inner below locals length
  obtain ⟨scope, rest, rfl⟩ := exists_cons_of_length_eq_add_one length
  refine ⟨rfl, ⟨rest, ?_, by simpa using length⟩⟩
  show c.locals.tail = _
  rw [locals, cons_append, tail_cons]

theorem declare (name : String) (object : Object) : Leads (n + 1) (n + 1) (modify (·.declare true name object)) := by
  intro c inner below locals length
  obtain ⟨scope, rest, rfl⟩ := exists_cons_of_length_eq_add_one length
  show Moved (n + 1) below c (c.declare true name object)
  rw [cons_append] at locals
  unfold Checker.declare
  split
  · exact ⟨rfl, ⟨_, locals, length⟩⟩
  · rw [locals]
    exact ⟨rfl, ⟨((name, object) :: scope) :: rest, rfl, length⟩⟩

theorem forM {xs : List α} {step : α → CheckM Unit} (h : ∀ x, Leads n n (step x)) : Leads n n (xs.forM step) := by
  induction xs with
  | nil => exact pure ()
  | cons x xs ih => exact bind (h x) fun _ => ih

theorem mapM {xs : List α} {step : α → CheckM β} (h : ∀ x, Leads n n (step x)) : Leads n n (xs.mapM step) := by
  induction xs with
  | nil => exact pure []
  | cons x xs ih =>
    rw [mapM_cons]
    exact bind (h x) fun _ => bind ih fun _ => pure _

end Leads

theorem leads_resolveType {ty : TypeExpr} : Leads n n (resolveType ty) := by
  refine .get fun c => ?_
  split
  · exact .bind (.recordType _) fun _ => .pure _
  · exact .bind (.diagnose _ _) fun _ => .pure _

theorem leads_resolveSignature {s : Signature} : Leads n n (resolveSignature s) := by
  refine .get fun c => .bind (.forM fun slot => ?_) fun _ => .pure _
  split
  · exact .recordType _
  · exact .pure ()

theorem leads_declareParams {fs : List Field} : Leads (n + 1) (n + 1) (declareParams fs) :=
  .forM fun _ => .bind leads_resolveType fun _ => .forM fun _ => .declare _ _

theorem leads_declareType {spec : TypeSpec} : Leads (n + 1) (n + 1) (declareType true spec) := by
  refine .bind leads_resolveType fun resolved => ?_
  dsimp only
  split
  · cases resolved with
    | some ty => exact .declare _ _
    | none => exact .pure ()
  · refine .get fun c => .bind ?_ fun _ => .declare _ _
    exact .record (fun _ => rfl) fun _ => rfl

theorem leads_recordOperand (x : Option Operand) : Leads n n (recordOperand id x) := by
  unfold recordOperand
  split
  · exact .recordType _
  · exact .recordType _
  · exact .pure ()

theorem leads_useIdent (node : Info) (name : String) : Leads n n (useIdent node name) := by
  unfold useIdent
  split
  · exact .pure _
  · refine .get fun c => ?_
    split
    · exact .bind (.diagnose _ _) fun _ => .pure _
    · exact .bind (.recordUse _ _) fun _ => .pure _

theorem leads_selectFrom (x : Option Operand) (sel : Ident) : Leads n n (selectFrom x sel) := by
  refine .get fun c => ?_
  repeat' split
  all_goals first
    | exact .pure _
    | exact .bind (.diagnose _ _) fun _ => .pure _

theorem leads_singleType (span : Span) (ty : Option Ty) : Leads n n (singleType span ty) := by
  unfold singleType
  split
  · exact .bind (.diagnose _ _) fun _ => .pure _
  · exact .pure _

theorem leads_assignedTypes (values : List Expr) (types : List (Option Ty)) (count : Nat) (span : Span) :
    Leads n n (assignedTypes values types count span) := by
  unfold assignedTypes spreadTypes
  repeat' split
  all_goals first
    | exact .mapM fun _ => leads_singleType _ _
    | exact .bind (leads_singleType _ _) fun _ => .pure _
    | exact .bind (.diagnose _ _) fun _ => .pure _
    | refine .get fun c => ?_
      repeat' split
      all_goals first
        | exact .pure _
        | exact .bind (.diagnose _ _) fun _ => .pure _

theorem leads_defineName {node : Info} (name : String) (ty : Option Ty) :
    Leads (n + 1) (n + 1) (defineName node name ty) := by
  unfold defineName
  split
  · exact .pure _
  · dsimp only
    split
    rotate_left
    case' h_1 => refine .bind (.recordType _) fun _ => ?_
    all_goals
      refine .get fun c => ?_
      split
      · exact .recordUse _ _
      · exact .bind (.recordUse _ _) fun _ => .declare _ _

theorem leads_declareValues (constant : Bool) (declared : Option Ty) (names : List Ident)
    (types : List (Option Ty)) : Leads (n + 1) (n + 1) (declareValues constant true declared names types) := by
  induction names generalizing types with
  | nil => exact .pure _
  | cons name names ih =>
    cases types with
    | nil => exact .pure _
    | cons ty types => exact .bind (.declare _ _) fun _ => ih types

/-! ## Expressions and statements -/

theorem Leads.finish (x : Option Operand) :
    Leads n n (recordOperand id x >>= fun _ => Pure.pure x) :=
  .bind (leads_recordOperand x) fun _ => .pure x

theorem Leads.answer (x : Option Operand) :
    Leads n n (Pure.pure x >>= fun x => recordOperand id x >>= fun _ => Pure.pure x) :=
  .bind (.pure x) .finish

/-- A statement that stands in a scope. -/
theorem Leads.within {s : Stmt} (h : ∀ n, Leads (n + s.reach) (n + s.reach) (checkStmt s)) :
    Leads (n + 1) (n + 1) (checkStmt s) := by
  have le : s.reach ≤ 1 := by cases s <;> simp [Stmt.reach]
  have moves := h (n + 1 - s.reach)
  rwa [Nat.sub_add_cancel (Nat.le_trans le (Nat.le_add_left 1 n))] at moves

mutual

/-- An expression leaves the local scopes as they are. -/
theorem leads_checkOperand {n : Nat} {hint : Option Ty} : ∀ {x : Expr}, Leads n n (checkOperand hint x)
  | .ident .. => .bind (leads_useIdent _ _) .finish
  | .lit .. => .answer _
  | .composite _ none _ => .get fun _ => .bind leads_checkElements fun _ => .answer _
  | .composite _ (some ty) _ =>
    .bind leads_resolveType fun _ => .get fun _ =>
      .bind leads_checkElements fun _ => .answer _
  | .funcLit .. =>
    .bind leads_resolveSignature fun _ => .bind .push fun _ =>
      .bind leads_declareParams fun _ => .bind leads_declareParams fun _ =>
      .bind leads_checkBlock fun _ => .bind .pop fun _ => .answer _
  | .paren .. => .bind leads_checkOperand .finish
  | .selector .. => .bind leads_checkOperand fun _ => .bind (leads_selectFrom _ _) .finish
  | .index .. =>
    .bind leads_checkOperand fun _ => .bind leads_checkOperand fun _ =>
      .get fun _ => .answer _
  | .slice .. => by
    rw [checkOperand]
    exact .bind leads_checkOperand fun _ => .bind leads_checkExpr? fun _ =>
      .bind leads_checkExpr? fun _ => .bind leads_checkExpr? fun _ => .get fun _ => .answer _
  | .typeAssert .. =>
    .bind leads_checkOperand fun _ => .bind leads_resolveType fun _ => .answer _
  | .call _ _ args _ => by
    have hargs : ∀ hints, Leads n n (checkExprs hints args) := fun _ => leads_checkExprs
    rw [checkOperand]
    dsimp only
    split
    · refine .bind (hargs _) fun types => ?_
      split <;> exact .answer _
    · refine .bind leads_checkOperand fun callee => ?_
      split
      · exact .bind (hargs _) fun _ => .answer _
      · split
        · cases args with
          | nil => exact .answer _
          | cons a rest =>
            refine .bind leads_checkOperand fun first => .bind leads_checkExprs fun _ => ?_
            split <;> exact .answer _
        · exact .bind (hargs _) fun _ => .answer _
      · refine .get fun _ => ?_
        split
        · exact .bind (hargs _) fun _ => .answer _
        · exact .bind (hargs _) fun _ => .bind (.diagnose _ _) fun _ => .answer _
      · exact .bind (hargs _) fun _ => .answer _
  | .unary .. => .bind leads_checkOperand fun _ => .get fun _ => .answer _
  | .binary .. | .keyValue .. =>
    .bind leads_checkOperand fun _ => .bind leads_checkOperand fun _ => .answer _
  | .type .. => .bind leads_resolveType fun _ => .answer _

theorem leads_checkExpr? {n : Nat} : ∀ {x : Option Expr}, Leads n n (checkExpr? x)
  | none => .pure _
  | some _ => .bind leads_checkOperand fun _ => .pure _

theorem leads_checkExprs {n : Nat} {hints : List Ty} :
    ∀ {xs : List Expr}, Leads n n (checkExprs hints xs)
  | [] => .pure _
  | _ :: _ => .bind leads_checkOperand fun _ => .bind leads_checkExprs fun _ => .pure _

theorem leads_checkElements {n : Nat} {under : Option Ty} {i : Nat} :
    ∀ {xs : List Expr}, Leads n n (checkElements under i xs)
  | [] => .pure _
  | x :: xs => by
    have rest : ∀ i, Leads n n (checkElements under i xs) := fun _ => leads_checkElements
    cases x
    case keyValue =>
      rw [checkElements]
      split
      · exact .bind leads_checkOperand fun _ => .bind leads_checkOperand fun _ => rest _
      · exact .bind leads_checkOperand fun _ => rest _
    all_goals
      rw [checkElements]
      · exact .bind leads_checkOperand fun _ => rest _
      · exact nofun

/-- A block leaves the local scopes as they are. -/
theorem leads_checkBlock {n : Nat} : ∀ {b : Block}, Leads n n (checkBlock b)
  | ⟨_, _⟩ => .bind .push fun _ => .bind leads_checkStmts fun _ => .pop

theorem leads_checkStmts {n : Nat} : ∀ {ss : List Stmt}, Leads (n + 1) (n + 1) (checkStmts ss)
  | [] => .pure _
  | _ :: _ => .bind (.within fun _ => leads_checkStmt) fun _ => leads_checkStmts

/-- A statement may add names to the scopes that it reaches. -/
theorem leads_checkStmt {n : Nat} : ∀ {s : Stmt}, Leads (n + s.reach) (n + s.reach) (checkStmt s)
  | .expr .. | .go .. | .defer .. | .incDec .. => .bind leads_checkOperand fun _ => .pure _
  | .assign _ _ op _ => by
    cases op
    case define =>
      rw [checkStmt]
      exact .bind leads_checkExprs fun _ => .bind (leads_assignedTypes _ _ _ _) fun _ =>
        leads_defineTargets
    all_goals
      rw [checkStmt]
      · exact .bind leads_checkTargets fun _ => .bind leads_checkExprs fun _ => .pure _
      · exact nofun
  | .decl _ (.types _) => .forM fun _ => leads_declareType
  | .decl _ (.vars _) | .decl _ (.consts _) => leads_checkValueSpecs
  | .ret .. => .bind leads_checkExprs fun _ => .pure _
  | .cond .. => by
    rw [checkStmt]
    exact .bind .push fun _ => .bind leads_checkStmt? fun _ => .bind leads_checkOperand fun _ =>
      .bind leads_checkBlock fun _ => .bind leads_checkStmt? fun _ => .pop
  | .loop .. => by
    rw [checkStmt]
    exact .bind .push fun _ => .bind leads_checkStmt? fun _ => .bind leads_checkExpr? fun _ =>
      .bind leads_checkStmt? fun _ => .bind leads_checkBlock fun _ => .pop
  | .range _ _ _ define .. => by
    rw [checkStmt]
    refine .bind leads_checkOperand fun _ => .get fun _ => .bind .push fun _ => ?_
    cases define with
    | true =>
      exact .bind leads_defineTarget? fun _ => .bind leads_defineTarget? fun _ =>
        .bind leads_checkBlock fun _ => .pop
    | false =>
      exact .bind leads_checkTarget? fun _ => .bind leads_checkTarget? fun _ =>
        .bind leads_checkBlock fun _ => .pop
  | .switch .. =>
    .bind .push fun _ => .bind leads_checkStmt? fun _ => .bind leads_checkExpr? fun _ =>
      .bind leads_checkClauses fun _ => .pop
  | .block .. => leads_checkBlock
  | .branch .. => .pure _

theorem leads_checkStmt? {n : Nat} : ∀ {s : Option Stmt}, Leads (n + 1) (n + 1) (checkStmt? s)
  | none => .pure _
  | some _ => .within fun _ => leads_checkStmt

theorem leads_checkClauses {n : Nat} : ∀ {cs : List CaseClause}, Leads n n (checkClauses cs)
  | [] => .pure _
  | .case .. :: _ =>
    .bind leads_checkExprs fun _ => .bind leads_checkBlock fun _ => leads_checkClauses
  | .default .. :: _ => .bind leads_checkBlock fun _ => leads_checkClauses

theorem leads_defineTargets {n : Nat} {types : List (Option Ty)} :
    ∀ {xs : List Expr}, Leads (n + 1) (n + 1) (defineTargets types xs)
  | [] => .pure _
  | x :: xs => by
    have rest : ∀ types, Leads (n + 1) (n + 1) (defineTargets types xs) := fun _ => leads_defineTargets
    by_cases name : ∃ i name, x = .ident i name
    · obtain ⟨_, _, rfl⟩ := name
      rw [defineTargets]
      exact .bind (leads_defineName _ _) fun _ => rest _
    · rw [defineTargets]
      · exact .bind leads_checkOperand fun _ => rest _
      · rintro i text rfl
        exact name ⟨_, _, rfl⟩

theorem leads_defineTarget? {n : Nat} {ty : Option Ty} :
    ∀ {x : Option Expr}, Leads (n + 1) (n + 1) (defineTarget? ty x)
  | none => .pure _
  | some x => by
    by_cases name : ∃ i name, x = .ident i name
    · obtain ⟨_, _, rfl⟩ := name
      rw [defineTarget?]
      exact leads_defineName _ _
    · rw [defineTarget?]
      · exact .bind leads_checkOperand fun _ => .pure _
      · rintro i text rfl
        exact name ⟨_, _, rfl⟩

theorem leads_checkTargets {n : Nat} : ∀ {xs : List Expr}, Leads n n (checkTargets xs)
  | [] => .pure _
  | _ :: _ => by
    rw [checkTargets]
    split
    · exact .bind leads_checkOperand fun _ => leads_checkTargets
    · exact leads_checkTargets

theorem leads_checkTarget? {n : Nat} : ∀ {x : Option Expr}, Leads n n (checkTarget? x)
  | none => .pure _
  | some _ => by
    rw [checkTarget?]
    split
    · exact .bind leads_checkOperand fun _ => .pure _
    · exact .pure _

theorem leads_checkValueSpecs {n : Nat} {constant : Bool} :
    ∀ {specs : List ValueSpec}, Leads (n + 1) (n + 1) (checkValueSpecs constant true specs)
  | [] => .pure _
  | ⟨_, _, ty, _⟩ :: _ => by
    cases ty
    case' none => refine .bind (.pure _) fun declared => ?_
    case' some ty => refine .bind leads_resolveType fun declared => ?_
    all_goals
      refine .bind leads_checkExprs fun types => ?_
      dsimp only
      split
      case' isTrue => refine .bind (.pure _) fun types => ?_
      case' isFalse => refine .bind (leads_assignedTypes _ _ _ _) fun types => ?_
      all_goals exact .bind (leads_declareValues _ _ _ _) fun _ => leads_checkValueSpecs

end

/-- The state has the scopes of the other, so that names mean the same in both. -/
def SameScopes (c c' : Checker) : Prop :=
  c'.locals = c.locals ∧ c'.packageScope = c.packageScope ∧ c'.lookup = c.lookup

theorem Leads.sameScopes (h : Leads 0 0 step) (c : Checker) : SameScopes c (step c).2 := by
  obtain ⟨outer, inner, locals, length⟩ := h c [] c.locals rfl rfl
  rw [length_eq_zero_iff.mp length, nil_append] at locals
  refine ⟨locals, congrArg (fun o => o.2.2.2.2) outer, ?_⟩
  simp only [Checker.outer, Prod.mk.injEq] at outer
  funext name
  simp only [Checker.lookup, locals, outer]

/-- **Names end with their scopes.** A statement adds names to the innermost scope
at most, and nothing to the package. After an expression, a block, or a statement
with a scope of its own, the scopes are those before it, and so every name means
what it meant. -/
theorem check_scopes {c : Checker} {scope : Scope} {scopes : List Scope} (locals : c.locals = scope :: scopes) :
    (∀ s, (∃ scope', (checkStmt s c).2.locals = scope' :: scopes) ∧
      (checkStmt s c).2.packageScope = c.packageScope) ∧
    (∀ s, s.reach = 0 → SameScopes c (checkStmt s c).2) ∧
    (∀ b, SameScopes c (checkBlock b c).2) ∧
    ∀ hint x, SameScopes c (checkOperand hint x c).2 := by
  refine ⟨fun s => ?_, fun s own => ?_, fun b => ?_, fun hint x => ?_⟩
  · have moved := Leads.within (n := 0) (s := s) (fun _ => leads_checkStmt) c [scope] scopes locals rfl
    obtain ⟨inner, after, one⟩ := moved.locals
    obtain ⟨scope', rfl⟩ := length_eq_one_iff.mp one
    exact ⟨⟨scope', after⟩, congrArg (fun o => o.2.2.2.2) moved.outer⟩
  · have moves := leads_checkStmt (n := 0) (s := s)
    rw [own] at moves
    exact moves.sameScopes c
  · exact leads_checkBlock.sameScopes c
  · exact leads_checkOperand.sameScopes c

/-- In the only scope of a state a variable is defined, and a block around that
definition leaves no trace. -/
theorem check_scopes_definition : let c : Checker := { stubs := {}, package := "main", info := {}, locals := [[]] }
    let s : Stmt := .assign ⟨0, {}⟩ [.ident ⟨1, {}⟩ "x"] .define [.lit ⟨2, {}⟩ .int "1"]
    (∃ scope, (checkStmt s c).2.locals = [scope]) ∧ (checkBlock ⟨⟨3, {}⟩, [s]⟩ c).2.lookup "x" = c.lookup "x" := by
  intro c s
  obtain ⟨stmts, -, blocks, -⟩ := check_scopes (c := c) rfl
  exact ⟨(stmts s).1, congrFun (blocks _).2.2 "x"⟩

end CheckHandle
