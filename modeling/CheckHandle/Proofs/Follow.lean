import CheckHandle.Proofs.Term
import CheckHandle.Proofs.Walk

/-!
# What a walk does to terms

A relation between the states before and after a part of a walk and the terms
that go in and come out. If it holds of each step of a visitor and is closed
under putting parts together (`Traverses`), it holds of the walk over any
syntax. This is the one induction over the syntax behind all statements on how a
walk changes a tree. Where it does not matter which blocks are the bodies of
functions, fewer closure conditions do (`Follows`).
-/

namespace CheckHandle

variable {σ ε : Type}

/-- What a visit leaves of `x`, given the answer of the visitor. -/
def ExprAction.visited (x : Expr) : ExprAction → Visited
  | .keep => ⟨x, none⟩
  | .replace y => ⟨y, none⟩
  | .splice ys => ⟨x, some ys⟩

/-- What stands in the place of a visited expression. -/
def Visited.inPlace (v : Visited) : (listed : Bool) → List Expr
  | true => v.many
  | false => [v.one]

/-- The slots of the expressions in a list, and of those that stand alone. -/
def Slot.Fits : Slot → Bool → Prop
  | .list .., listed => listed = true
  | .single, listed => listed = false
  | .statement, _ => False

/-- What becomes of a statement that has been walked. -/
def StmtAction.result (action : StmtAction) (s : Stmt) : List Stmt := action.before ++ if action.remove then [] else [s]

/-- `W` and `S` describe a walk with the visitor `v`: what goes in and out, and
the states before and after. `P` does so for the parts of an expression. These
are the steps that every description has to follow. -/
structure WalkSteps (v : Visitor σ ε) (P : σ → Expr → Expr → σ → Prop)
    (W : σ → List Term → List Term → σ → Prop) (S : σ → List Statement → List Statement → σ → Prop) :
    Prop where
  nil : ∀ {s}, W s [] [] s
  append : ∀ {ts ts' us us' s s₁ s₂}, W s ts ts' s₁ → W s₁ us us' s₂ → W s (ts ++ us) (ts' ++ us') s₂
  fixed : ∀ {kind info parts s}, W s [.fixed kind info parts] [.fixed kind info parts] s
  expr : ∀ {x x' : Expr} {listed slot region action s s₁ s'}, x'.kind = x.kind → x'.info = x.info →
    slot.Fits listed → P s x x' s₁ → v.exitExpr x' ⟨slot, region⟩ s₁ = (.ok action, s') →
    W s [x.term listed] (exprTerms listed ((action.visited x').inPlace listed)) s'
  block : ∀ {info ss ss' s s₁ s₂ s₃}, v.enterBlock ⟨info, ss⟩ s = (.ok (), s₁) →
    S s₁ (statements ss) (statements ss') s₂ → v.exitBlock ⟨info, ss'⟩ s₂ = (.ok (), s₃) →
    W s [.block info (statements ss)] [.block info (statements ss')] s₃
  done : ∀ {s}, S s [] [] s
  andThen : ∀ {ts ts' us us' s s₁ s₂}, S s ts ts' s₁ → S s₁ us us' s₂ → S s (ts ++ us) (ts' ++ us') s₂
  removed : ∀ {t s s'}, v.enterStmt t s = (.ok .remove, s') → S s [t.statement] [] s'
  skipped : ∀ {t s s'}, v.enterStmt t s = (.ok .skip, s') → S s [t.statement] [t.statement] s'
  stmt : ∀ {t t' action s s₁ s₂ s₃}, t.kind ≠ .exprStmt → t'.kind = t.kind → t'.info = t.info →
    v.enterStmt t s = (.ok .walk, s₁) → W s₁ t.parts t'.parts s₂ →
    v.exitStmt t' s₂ = (.ok action, s₃) → S s [t.statement] (statements (action.result t')) s₃
  exprStmt : ∀ {info} {x x' : Expr} {action act s s₁ s₂ s₃ s₄}, x'.kind = x.kind →
    x'.info = x.info → v.enterStmt (.expr info x) s = (.ok .walk, s₁) →
    P s₁ x x' s₂ → v.exitExpr x' ⟨.statement, .body⟩ s₂ = (.ok action, s₃) →
    v.exitStmt (.expr info (action.visited x').one) s₃ = (.ok act, s₄) →
    S s [(Stmt.expr info x).statement] (statements (act.result (.expr info (action.visited x').one))) s₄

/-- A description that tells functions from other constructs. -/
structure Traverses (v : Visitor σ ε) (P : σ → Expr → Expr → σ → Prop)
    (W : σ → List Term → List Term → σ → Prop) (S : σ → List Statement → List Statement → σ → Prop) : Prop
    extends WalkSteps v P W S where
  group : ∀ {kind info parts parts' s s'}, kind ≠ .func → W s parts parts' s' →
    W s [.group kind info parts] [.group kind info parts'] s'
  parts : ∀ {x x' : Expr} {s s'}, x.kind ≠ .funcLit → x'.kind = x.kind → x'.info = x.info →
    W s x.parts x'.parts s' → P s x x' s'
  literal : ∀ {info sig} {b b' : Block} {s s₁ s₂ s₃}, v.enterFunc sig s = (.ok (), s₁) →
    W s₁ [b.term] [b'.term] s₂ → v.exitFunc s₂ = (.ok (), s₃) →
    P s (.funcLit info sig b) (.funcLit info sig b') s₃
  func : ∀ {d : FuncDecl} {b b' : Block} {s s₁ s₂ s₃}, d.body = some b →
    v.enterFunc d.sig s = (.ok (), s₁) → W s₁ [b.term] [b'.term] s₂ →
    v.exitFunc s₂ = (.ok (), s₃) → W s [d.term] [{ d with body := some b' }.term] s₃
  bodiless : ∀ {d : FuncDecl} {s}, d.body = none → W s [d.term] [d.term] s

theorem exprTerms_append (listed : Bool) (xs ys : List Expr) :
    exprTerms listed (xs ++ ys) = exprTerms listed xs ++ exprTerms listed ys :=
  append_of_cons rfl (fun _ _ => by simp [exprTerms]) xs ys

theorem statements_append (ss ts : List Stmt) : statements (ss ++ ts) = statements ss ++ statements ts :=
  append_of_cons rfl (fun _ _ => by simp [statements]) ss ts

/-- The report of an expression is the last step of its walk. -/
theorem succeeds_leave {v : Visitor σ ε} {region : Region} {slot : Slot} {x : Expr} {V : Visited}
    {s s' : σ} (h : Succeeds (v.leave region slot x) s V s') :
    ∃ action, v.exitExpr x ⟨slot, region⟩ s = (.ok action, s') ∧ V = action.visited x := by
  unfold Visitor.leave at h
  have persists : ∀ action : ExprAction, @Persists σ ε Visited
      (match action with
        | .keep => pure ⟨x, none⟩
        | .replace y => pure ⟨y, none⟩
        | .splice ys => pure ⟨x, some ys⟩) := by
    intro action
    cases action <;> infer_instance
  rw [succeeds_bind] at h
  obtain ⟨action, s1, hask, h⟩ := h
  rw [succeeds_ask] at hask
  refine ⟨action, ?_⟩
  cases action <;> (rw [succeeds_pure] at h; obtain ⟨rfl, rfl⟩ := h; exact ⟨hask, rfl⟩)

/-- How a statement of a block is walked. -/
theorem succeeds_stmts {v : Visitor σ ε} {t : Stmt} {ts out : List Stmt} {s s' : σ}
    (h : Succeeds (walkStmts v (t :: ts)) s out s') :
    (∃ s1, v.enterStmt t s = (.ok .remove, s1) ∧ Succeeds (walkStmts v ts) s1 out s') ∨
    (∃ s1 rest, v.enterStmt t s = (.ok .skip, s1) ∧ Succeeds (walkStmts v ts) s1 rest s' ∧ out = t :: rest) ∨
    ∃ s1 t' s2 action s3 rest, v.enterStmt t s = (.ok .walk, s1) ∧
      Succeeds (walkStmt v .body .owned t) s1 t' s2 ∧ v.exitStmt t' s2 = (.ok action, s3) ∧
      Succeeds (walkStmts v ts) s3 rest s' ∧ out = action.result t' ++ rest := by
  rw [walkStmts] at h
  obtain ⟨enter, s1, henter, h⟩ :=
    (@succeeds_bind _ _ _ _ _ _ _ _ (fun enter => by cases enter <;> infer_instance) _).mp h
  rw [succeeds_ask] at henter
  cases enter with
  | remove => exact .inl ⟨s1, henter, h⟩
  | skip =>
    simp only [succeeds_bind, succeeds_pure] at h
    obtain ⟨rest, _, hrest, rfl, rfl⟩ := h
    exact .inr (.inl ⟨s1, rest, henter, hrest, rfl⟩)
  | walk =>
    simp only [succeeds_bind, succeeds_pure, succeeds_ask] at h
    obtain ⟨t', s2, ht, action, s3, haction, rest, _, hrest, rfl, rfl⟩ := h
    refine .inr (.inr ⟨s1, t', s2, action, s3, rest, henter, ht, haction, hrest, ?_⟩)
    unfold StmtAction.result
    cases action.remove <;> simp

theorem targetKind_ne_func (define : Bool) : targetKind define ≠ .func := by
  cases define <;> nofun

theorem Stmt.kind_ne_func (t : Stmt) : t.kind ≠ .func := by
  cases t <;> nofun

namespace Traverses

variable {v : Visitor σ ε} {P : σ → Expr → Expr → σ → Prop}
  {W : σ → List Term → List Term → σ → Prop} {S : σ → List Statement → List Statement → σ → Prop}
  {region : Region} {x : Expr} {V : Visited} {s s1 s' : σ}

theorem cons (f : Traverses v P W S) {t t' : Term} {us us' : List Term}
    (h : W s [t] [t'] s1) (h' : W s1 us us' s') : W s (t :: us) (t' :: us') s' :=
  f.append h h'

theorem ident (f : Traverses v P W S) (x : Ident) : W s [x.term] [x.term] s := f.fixed

theorem type (f : Traverses v P W S) (t : TypeExpr) : W s [t.term] [t.term] s := by
  cases t <;> (rw [TypeExpr.term]; exact f.fixed)

theorem type? (f : Traverses v P W S) (t : Option TypeExpr) : W s [typeTerm? t] [typeTerm? t] s := by
  cases t with
  | none =>
    rw [typeTerm?]
    exact f.fixed
  | some t =>
    rw [typeTerm?]
    exact f.type t

/-- The walk of an expression up to its report, and the report. -/
def Reported (v : Visitor σ ε) (P : σ → Expr → Expr → σ → Prop) (region : Region)
    (slot : Slot) (x : Expr) (s : σ) (V : Visited) (s' : σ) : Prop :=
  ∃ x' s₁ action, x'.kind = x.kind ∧ x'.info = x.info ∧ P s x x' s₁ ∧
    v.exitExpr x' ⟨slot, region⟩ s₁ = (.ok action, s') ∧ V = action.visited x'

/-- An expression that stands alone. -/
theorem one (f : Traverses v P W S) (h : Reported v P region .single x s V s') :
    W s [x.term false] [V.one.term false] s' := by
  obtain ⟨x', s1, action, hkind, hinfo, hparts, hexit, rfl⟩ := h
  have fits : Slot.Fits .single false := rfl
  exact f.expr hkind hinfo fits hparts hexit

/-- An expression in a list. -/
theorem listed (f : Traverses v P W S) {owner : NodeId} {kind : ListKind}
    (h : Reported v P region (.list owner kind) x s V s') :
    W s [x.term true] (exprTerms true V.many) s' := by
  obtain ⟨x', s1, action, hkind, hinfo, hparts, hexit, rfl⟩ := h
  have fits : Slot.Fits (.list owner kind) true := rfl
  exact f.expr hkind hinfo fits hparts hexit

/-- The walk of a statement. An expression statement is described by that of
its expression, whose report depends on the place. -/
def Walked (v : Visitor σ ε) (P : σ → Expr → Expr → σ → Prop)
    (W : σ → List Term → List Term → σ → Prop) (region : Region) (place : Place) (t : Stmt) (s : σ)
    (t' : Stmt) (s' : σ) : Prop :=
  (∃ info x V, t = .expr info x ∧ Reported v P region place.exprSlot x s V s' ∧ t' = .expr info V.one) ∨
  t.kind ≠ .exprStmt ∧ t'.kind = t.kind ∧ t'.info = t.info ∧ W s t.parts t'.parts s'

/-- A statement in a header or after `else`. -/
theorem inside (f : Traverses v P W S) {place : Place} {t t' : Stmt}
    (h : Walked v P W region place t s t' s') (hplace : place ≠ .owned) :
    W s [stmtTerm? (some t)] [stmtTerm? (some t')] s' := by
  have same : t'.kind = t.kind ∧ t'.info = t.info ∧ W s t.parts t'.parts s' := by
    rcases h with ⟨info, x, V, rfl, hx, rfl⟩ | ⟨-, h⟩
    · refine ⟨rfl, rfl, @one σ ε v P W S region _ _ _ _ f ?_⟩
      cases place with
      | owned => exact absurd rfl hplace
      | header | other => exact hx
    · exact h
  rw [stmtTerm?, stmtTerm?, same.1, same.2.1]
  exact f.group t.kind_ne_func same.2.2

/-- A statement of a block, between its entry and its exit. -/
theorem owned (f : Traverses v P W S) {t t' : Stmt} {action : StmtAction} {s2 s3 : σ}
    (henter : v.enterStmt t s = (.ok .walk, s1)) (h : Walked v P W .body .owned t s1 t' s2)
    (hexit : v.exitStmt t' s2 = (.ok action, s3)) :
    S s [t.statement] (statements (action.result t')) s3 := by
  rcases h with ⟨info, x, V, rfl, ⟨x', _, act, hkind, hinfo, hparts, hx, rfl⟩, rfl⟩ |
    ⟨hne, hkind, hinfo, hparts⟩
  · exact f.exprStmt hkind hinfo henter hparts hx hexit
  · exact f.stmt hne hkind hinfo henter hparts hexit

/-- An expression other than a function literal, by its parts. -/
theorem report (f : Traverses v P W S) {slot : Slot} {x' : Expr}
    (h : Succeeds (v.leave region slot x') s1 V s') (hkind : x'.kind = x.kind) (hinfo : x'.info = x.info)
    (other : x.kind ≠ .funcLit) (hparts : W s x.parts x'.parts s1) : Reported v P region slot x s V s' := by
  obtain ⟨action, hexit, hV⟩ := succeeds_leave h
  exact ⟨x', s1, action, hkind, hinfo, f.parts other hkind hinfo hparts, hexit, hV⟩

/-- What a part of a walk makes of the terms `us`, in terms of its result. -/
structure Makes (W : σ → List Term → List Term → σ → Prop) {α : Type} (m : WalkM σ ε α) (us : List Term)
    (made : α → List Term) : Prop where
  of : ∀ {a s s'}, Succeeds m s a s' → W s us (made a) s'

section Makes

variable {α β γ : Type} {m : WalkM σ ε α} {k : WalkM σ ε β} {t : Term} {us : List Term}

theorem Makes.pure {a : α} {made : α → List Term} (h : ∀ {s}, W s us (made a) s) :
    Makes W (pure a : WalkM σ ε α) us made where
  of done := by
    obtain ⟨rfl, rfl⟩ := succeeds_pure.mp done
    exact h

theorem Makes.map {g : α → β} {made : β → List Term} (h : ∀ {a s s'}, Succeeds m s a s' → W s us (made (g a)) s') :
    Makes W (do return g (← m)) us made where
  of done := by
    simp only [succeeds_bind, succeeds_pure] at done
    obtain ⟨_, _, first, rfl, rfl⟩ := done
    exact h first

/-- A first part and the others after it. -/
theorem andRest (f : Traverses v P W S) [Persists k] {g : α → β → γ} {p : α → List Term} {q : β → List Term}
    {made : γ → List Term} (h : ∀ {a s s'}, Succeeds m s a s' → W s [t] (p a) s') (h' : Makes W k us q)
    (both : ∀ a b, made (g a b) = p a ++ q b) : Makes W (do let a ← m; return g a (← k)) (t :: us) made where
  of done := by
    simp only [succeeds_bind, succeeds_pure] at done
    obtain ⟨_, _, first, _, _, rest, rfl, rfl⟩ := done
    rw [both]
    exact f.append (h first) (h'.of rest)

end Makes

variable (f : Traverses v P W S)

include f

mutual

theorem inExpr (region : Region) (slot : Slot) :
    ∀ (x : Expr) {V : Visited} {s s' : σ}, Succeeds (walkExpr v region slot x) s V s' →
      Reported v P region slot x s V s'
  | x, _, _, _, h => by
    cases x <;> rw [walkExpr] at h
    case ident | lit => exact f.report h rfl rfl nofun f.nil
    case type => exact f.report h rfl rfl nofun (f.type _)
    all_goals simp only [succeeds_bind, succeeds_ask] at h
    case composite =>
      obtain ⟨_, _, helts, h⟩ := h
      exact f.report h rfl rfl nofun (f.cons (f.type? _) (f.group nofun ((inEach region _).of helts)))
    case funcLit info sig body =>
      obtain ⟨_, s1, henter, body', s2, hbody, _, s3, hleave, h⟩ := h
      obtain ⟨action, hexit, hV⟩ := succeeds_leave h
      exact ⟨.funcLit info sig body', s3, action, rfl, rfl, f.literal henter ((inBlock body).of hbody) hleave, hexit, hV⟩
    -- The others start with an expression.
    all_goals
      obtain ⟨_, _, hx, h⟩ := h
      have first := f.one (inExpr region .single _ hx)
    case paren | unary => exact f.report h rfl rfl nofun first
    case selector => exact f.report h rfl rfl nofun (f.cons first (f.ident _))
    case typeAssert => exact f.report h rfl rfl nofun (f.cons first (f.type _))
    case slice =>
      obtain ⟨_, _, hlo, _, _, hhi, _, _, hmax, h⟩ := h
      exact f.report h rfl rfl nofun (f.cons first
        (f.cons ((inExpr? region _).of hlo) (f.cons ((inExpr? region _).of hhi) ((inExpr? region _).of hmax))))
    all_goals obtain ⟨_, _, hy, h⟩ := h
    case call => exact f.report h rfl rfl nofun (f.cons first (f.group nofun ((inList region _ _ _).of hy)))
    case index | binary | keyValue =>
      exact f.report h rfl rfl nofun (f.cons first (f.one (inExpr region .single _ hy)))
termination_by structural x => x

theorem inExpr? (region : Region) :
    ∀ x : Option Expr, Makes W (walkExpr? v region x) [exprTerm? x] fun x' => [exprTerm? x']
  | none => by
    rw [walkExpr?]
    exact .pure f.fixed
  | some x => by
    rw [walkExpr?]
    exact .map fun hx => f.one (inExpr region .single x hx)
termination_by structural x => x

theorem inEach (region : Region) :
    ∀ xs : List Expr, Makes W (walkEach v region xs) (exprTerms false xs) (exprTerms false)
  | [] => by
    rw [walkEach]
    exact .pure f.nil
  | x :: xs => by
    rw [walkEach]
    exact f.andRest (fun hx => f.one (inExpr region .single x hx)) (inEach region xs) fun _ _ => rfl
termination_by structural x => x

theorem inList (region : Region) (owner : NodeId) (kind : ListKind) :
    ∀ xs : List Expr, Makes W (walkList v region (.list owner kind) xs) (exprTerms true xs) (exprTerms true)
  | [] => by
    rw [walkList]
    exact .pure f.nil
  | x :: xs => by
    rw [walkList]
    exact f.andRest (fun hx => f.listed (inExpr region _ x hx)) (inList region owner kind xs)
      fun _ _ => exprTerms_append ..
termination_by structural x => x

theorem inBlock : ∀ b : Block, Makes W (walkBlock v b) [b.term] fun b' => [b'.term]
  | ⟨info, ss⟩ => ⟨fun h => by
    rw [walkBlock] at h
    simp only [succeeds_bind, succeeds_pure, succeeds_ask] at h
    obtain ⟨_, s1, henter, ss', s2, hss, _, _, hexit, rfl, rfl⟩ := h
    rw [Block.term, Block.term]
    exact f.block henter (inStmts ss hss) hexit⟩
termination_by structural x => x

theorem inStmts :
    ∀ (ss : List Stmt) {ss' : List Stmt} {s s' : σ}, Succeeds (walkStmts v ss) s ss' s' →
      S s (statements ss) (statements ss') s'
  | [], _, _, _, h => by
    rw [walkStmts, succeeds_pure] at h
    obtain ⟨rfl, rfl⟩ := h
    rw [statements]
    exact f.done
  | t :: ts, _, _, _, h => by
    rw [statements]
    rcases succeeds_stmts h with ⟨s1, henter, hrest⟩ | ⟨s1, rest, henter, hrest, rfl⟩ |
      ⟨s1, t', s2, action, s3, rest, henter, ht, hexit, hrest, rfl⟩
    · exact f.andThen (f.removed henter) (inStmts ts hrest)
    · rw [statements]
      exact f.andThen (f.skipped henter) (inStmts ts hrest)
    · rw [statements_append]
      exact f.andThen (f.owned henter (inStmt .body .owned t ht) hexit) (inStmts ts hrest)
termination_by structural x => x

theorem inStmt (region : Region) (place : Place) :
    ∀ (t : Stmt) {t' : Stmt} {s s' : σ}, Succeeds (walkStmt v region place t) s t' s' →
      Walked v P W region place t s t' s'
  | t, _, _, _, h => by
    cases t <;> rw [walkStmt] at h <;> simp only [succeeds_bind, succeeds_pure] at h
    case branch =>
      obtain ⟨rfl, rfl⟩ := h
      exact .inr ⟨nofun, rfl, rfl, f.nil⟩
    case expr info x =>
      obtain ⟨X, _, hx, rfl, rfl⟩ := h
      exact .inl ⟨info, x, X, rfl, inExpr region _ x hx, rfl⟩
    case assign =>
      obtain ⟨_, _, hlhs, _, _, hrhs, rfl, rfl⟩ := h
      exact .inr ⟨nofun, rfl, rfl,
        f.cons (f.group (targetKind_ne_func _) ((inEach region _).of hlhs)) (f.group nofun ((inList region _ _ _).of hrhs))⟩
    case cond =>
      obtain ⟨_, _, hinit, _, _, htest, _, _, hbody, _, _, hother, rfl, rfl⟩ := h
      exact .inr ⟨nofun, rfl, rfl, f.cons ((inHeader? _ _).of hinit) (f.cons (f.one (inExpr _ .single _ htest))
        (f.cons ((inBlock _).of hbody) ((inOther? region _).of hother)))⟩
    case loop =>
      obtain ⟨_, _, hinit, _, _, htest, _, _, hpost, _, _, hbody, rfl, rfl⟩ := h
      exact .inr ⟨nofun, rfl, rfl, f.cons ((inHeader? _ _).of hinit)
        (f.cons ((inExpr? _ _).of htest) (f.cons ((inHeader? _ _).of hpost) ((inBlock _).of hbody)))⟩
    case range =>
      obtain ⟨_, _, hkey, _, _, hvalue, _, _, hx, _, _, hbody, rfl, rfl⟩ := h
      exact .inr ⟨nofun, rfl, rfl,
        f.cons (f.group (targetKind_ne_func _) (f.cons ((inExpr? region _).of hkey) ((inExpr? region _).of hvalue)))
          (f.cons (f.one (inExpr region .single _ hx)) ((inBlock _).of hbody))⟩
    case switch =>
      obtain ⟨_, _, hinit, _, _, htag, _, _, hclauses, rfl, rfl⟩ := h
      exact .inr ⟨nofun, rfl, rfl, f.cons ((inHeader? region _).of hinit)
        (f.cons ((inExpr? region _).of htag) (f.group nofun ((inClauses region true _).of hclauses)))⟩
    all_goals obtain ⟨_, _, hx, rfl, rfl⟩ := h
    case decl => exact .inr ⟨nofun, rfl, rfl, (inDecl region _).of hx⟩
    case ret => exact .inr ⟨nofun, rfl, rfl, f.group nofun ((inList region _ _ _).of hx)⟩
    case block => exact .inr ⟨nofun, rfl, rfl, (inBlock _).of hx⟩
    case incDec | go | defer => exact .inr ⟨nofun, rfl, rfl, f.one (inExpr _ .single _ hx)⟩
termination_by structural x => x

theorem inHeader? (region : Region) :
    ∀ t : Option Stmt, Makes W (walkHeader? v region t) [stmtTerm? t] fun t' => [stmtTerm? t']
  | none => by
    rw [walkHeader?]
    exact .pure f.fixed
  | some t => by
    rw [walkHeader?]
    exact .map fun ht => f.inside (inStmt region .header t ht) nofun
termination_by structural x => x

theorem inOther? (region : Region) :
    ∀ t : Option Stmt, Makes W (walkOther? v region t) [stmtTerm? t] fun t' => [stmtTerm? t']
  | none => by
    rw [walkOther?]
    exact .pure f.fixed
  | some t => by
    rw [walkOther?]
    exact .map fun ht => f.inside (inStmt region .other t ht) nofun
termination_by structural x => x

theorem inClauses (region : Region) (first : Bool) :
    ∀ cs : List CaseClause, Makes W (walkClauses v region first cs) (clauseTerms cs) clauseTerms
  | [] => by
    rw [walkClauses]
    exact .pure f.nil
  | .case info values body :: cs => ⟨fun h => by
    rw [walkClauses] at h
    simp only [succeeds_bind, succeeds_pure] at h
    obtain ⟨_, _, hvalues, _, _, hbody, _, _, hcs, rfl, rfl⟩ := h
    exact f.cons
      (f.group nofun (f.cons (f.group nofun ((inValues region first values).of hvalues)) ((inBlock body).of hbody)))
      ((inClauses region _ cs).of hcs)⟩
  | .default info body :: cs => by
    rw [walkClauses]
    exact f.andRest (fun hbody => f.group nofun ((inBlock body).of hbody)) (inClauses region first cs) fun _ _ => rfl
termination_by structural x => x

theorem inValues (region : Region) (first : Bool) :
    ∀ xs : List Expr, Makes W (walkValues v region first xs) (exprTerms false xs) (exprTerms false)
  | [] => by
    rw [walkValues]
    exact .pure f.nil
  | x :: xs => by
    rw [walkValues]
    exact f.andRest (fun hx => f.one (inExpr _ .single x hx)) (inValues region false xs) fun _ _ => rfl
termination_by structural x => x

theorem inDecl (region : Region) :
    ∀ d : Decl, Makes W (walkDecl v region d) [d.term] fun d' => [d'.term]
  | .types specs => by
    rw [walkDecl]
    exact .pure f.fixed
  | .vars specs | .consts specs => by
    rw [walkDecl]
    exact .map fun hspecs => f.group nofun ((inSpecs region specs).of hspecs)
termination_by structural x => x

theorem inSpecs (region : Region) :
    ∀ specs : List ValueSpec, Makes W (walkSpecs v region specs) (valueSpecTerms specs) valueSpecTerms
  | [] => by
    rw [walkSpecs]
    exact .pure f.nil
  | ⟨info, names, ty, values⟩ :: specs => by
    rw [walkSpecs]
    exact f.andRest (fun hvalues => f.group nofun (f.cons f.fixed (f.cons (f.type? ty)
      (f.group nofun ((inList region _ _ values).of hvalues))))) (inSpecs region specs) fun _ _ => rfl
termination_by structural x => x

end

theorem inFunc (d : FuncDecl) : Makes W (walkFunc v d) [d.term] fun d' => [d'.term] := by
  refine ⟨fun h => ?_⟩
  obtain ⟨info, recv, name, sig, body⟩ := d
  cases body with
  | none =>
    simp only [walkFunc, succeeds_pure] at h
    obtain ⟨rfl, rfl⟩ := h
    exact f.bodiless rfl
  | some body =>
    simp only [walkFunc, succeeds_bind, succeeds_pure, succeeds_ask] at h
    obtain ⟨_, s1, henter, body', s2, hbody, _, _, hexit, rfl, rfl⟩ := h
    exact f.func rfl henter ((f.inBlock body).of hbody) hexit

theorem inTop (d : TopDecl) : Makes W (walkTop v d) [d.term] fun d' => [d'.term] := by
  cases d with
  | decl d =>
    rw [walkTop]
    exact .map (f.inDecl .packageLevel d).of
  | func d =>
    rw [walkTop]
    exact .map (f.inFunc d).of

theorem inTops (ds : List TopDecl) :
    Makes W (ds.mapM (walkTop v)) (ds.map TopDecl.term) (List.map TopDecl.term) := by
  induction ds with
  | nil =>
    rw [List.mapM_nil]
    exact .pure f.nil
  | cons d ds ih =>
    rw [List.mapM_cons]
    exact f.andRest (f.inTop d).of ih fun _ _ => rfl

/-- A walk over a file does what its steps do. -/
theorem inFile (file : File) {file' : File} {s s' : σ}
    (h : Succeeds (walkFile v file) s file' s') : W s [file.term] [file'.term] s' := by
  unfold walkFile at h
  simp only [succeeds_bind, succeeds_pure] at h
  obtain ⟨decls, _, hdecls, rfl, rfl⟩ := h
  exact f.group nofun (f.cons (f.ident file.package) (f.cons f.fixed (f.group nofun ((f.inTops _).of hdecls))))

end Traverses

/-- `W` and `S` describe a walk with the visitor `v`, and it does not matter
whether a block is the body of a function. -/
structure Follows (v : Visitor σ ε) (W : σ → List Term → List Term → σ → Prop)
    (S : σ → List Statement → List Statement → σ → Prop) : Prop
    extends WalkSteps v (fun s x x' s' => W s x.parts x'.parts s') W S where
  group : ∀ {kind info parts parts' s s'}, W s parts parts' s' →
    W s [.group kind info parts] [.group kind info parts'] s'
  func : ∀ {sig} {b b' : Block} {s s₁ s₂ s₃}, v.enterFunc sig s = (.ok (), s₁) →
    W s₁ [b.term] [b'.term] s₂ → v.exitFunc s₂ = (.ok (), s₃) → W s [b.term] [b'.term] s₃

namespace Follows

variable {v : Visitor σ ε} {W : σ → List Term → List Term → σ → Prop}
  {S : σ → List Statement → List Statement → σ → Prop} {s s' : σ}

theorem signature (f : Follows v W S) (sig : Signature) : W s [sig.term] [sig.term] s := by
  obtain ⟨params, results⟩ := sig
  rw [Signature.term]
  exact f.fixed

theorem field? (f : Follows v W S) (x : Option Field) : W s [fieldTerm? x] [fieldTerm? x] s := by
  rcases x with _ | ⟨info, names, ty, variadic, tag⟩
  · exact f.fixed
  · rw [fieldTerm?, Field.term]
    exact f.fixed

theorem traverses (f : Follows v W S) : Traverses v (fun s x x' s' => W s x.parts x'.parts s') W S where
  toWalkSteps := f.toWalkSteps
  group _ := f.group
  parts _ _ _ h := h
  literal {info sig b b' s s1 s2 s3} henter h hexit := f.append (f.signature sig) (f.func henter h hexit)
  func {d b b' s s1 s2 s3} hbody henter h hexit := by
    obtain ⟨info, recv, name, sig, body⟩ := d
    cases hbody
    exact f.group (f.append (f.field? recv) (f.append f.fixed (f.append (f.signature sig) (f.func henter h hexit))))
  bodiless {d s} hbody := by
    obtain ⟨info, recv, name, sig, body⟩ := d
    cases hbody
    exact f.group (f.append (f.field? recv) (f.append f.fixed (f.append (f.signature sig) f.fixed)))

/-- A walk over a file does what its steps do. -/
theorem inFile (f : Follows v W S) (file : File) {file' : File}
    (h : Succeeds (walkFile v file) s file' s') : W s [file.term] [file'.term] s' :=
  f.traverses.inFile file h

end Follows

end CheckHandle
