import CheckHandle.Proofs.Term

/-!
# Terms tell syntax apart

The term of a file keeps everything that the file has, so what is said of the
term after a pass determines the file.
-/

namespace CheckHandle

theorem Ident.term_inj {x y : Ident} (h : x.term = y.term) : x = y := by
  obtain ⟨info, name⟩ := x
  obtain ⟨info', name'⟩ := y
  simp only [Ident.term, Term.fixed.injEq, Kind.name.injEq, Option.some.injEq] at h
  obtain ⟨rfl, rfl, -⟩ := h
  rfl

theorem map_term_inj {α : Type} {f : α → Term} (inj : ∀ {a b}, f a = f b → a = b) {xs ys : List α}
    (h : xs.map f = ys.map f) : xs = ys :=
  (List.map_inj_right fun _ _ => inj).mp h

attribute [local simp] Term.absent TypeExpr.term typeTerm? Field.term fieldTerms Signature.term fixedTerm?
  Expr.parts exprTerm? exprTerms Block.term Stmt.parts stmtTerm? statements clauseTerms Decl.term
  typeSpecTerms valueSpecTerms fieldTerm? blockTerm? identTerm? TopDecl.term FuncDecl.term Import.term
  File.term

mutual

theorem TypeExpr.term_inj : ∀ (t : TypeExpr) {u : TypeExpr}, t.term = u.term → t = u
  | t, u, h => by
    cases t <;> cases u <;> simp at h
    case name => obtain ⟨⟨rfl, rfl⟩, rfl⟩ := h; rfl
    all_goals obtain ⟨rfl, h⟩ := h
    case pointer => rw [TypeExpr.term_inj _ h]
    case slice => rw [TypeExpr.term_inj _ h]
    case array => rw [fixedTerm?_inj _ h.1, TypeExpr.term_inj _ h.2]
    case map => rw [TypeExpr.term_inj _ h.1, TypeExpr.term_inj _ h.2]
    case func => rw [Signature.term_inj _ h]
    case struct => rw [fieldTerms_inj _ h]
    case interface => rw [fieldTerms_inj _ h]
termination_by structural t => t

theorem typeTerm?_inj : ∀ (t : Option TypeExpr) {u : Option TypeExpr}, typeTerm? t = typeTerm? u → t = u
  | none, none, _ => rfl
  | none, some t, h | some t, none, h => by cases t <;> simp at h
  | some t, some u, h => by
    rw [typeTerm?, typeTerm?] at h
    rw [TypeExpr.term_inj _ h]
termination_by structural t => t

theorem Field.term_inj : ∀ (f : Field) {g : Field}, f.term = g.term → f = g
  | ⟨info, names, ty, variadic, tag⟩, ⟨_, _, _, _, _⟩, h => by
    simp at h
    obtain ⟨⟨rfl, rfl⟩, rfl, hnames, hty⟩ := h
    rw [map_term_inj Ident.term_inj hnames, TypeExpr.term_inj _ hty]
termination_by structural f => f

theorem fieldTerms_inj : ∀ (fs : List Field) {gs : List Field}, fieldTerms fs = fieldTerms gs → fs = gs
  | [], [], _ => rfl
  | [], _ :: _, h | _ :: _, [], h => by simp at h
  | f :: fs, g :: gs, h => by
    rw [fieldTerms, fieldTerms, List.cons.injEq] at h
    rw [Field.term_inj _ h.1, fieldTerms_inj _ h.2]
termination_by structural fs => fs

theorem Signature.term_inj : ∀ (sig : Signature) {sig' : Signature}, sig.term = sig'.term → sig = sig'
  | ⟨params, results⟩, ⟨_, _⟩, h => by
    simp at h
    rw [fieldTerms_inj _ h.1, fieldTerms_inj _ h.2]
termination_by structural sig => sig

theorem fixedTerm?_inj : ∀ (x : Option Expr) {y : Option Expr}, fixedTerm? x = fixedTerm? y → x = y
  | none, none, _ => rfl
  | none, some x, h | some x, none, h => by cases x <;> simp at h
  | some x, some y, h => by
    simp at h
    rw [Expr.eq_of_parts _ h.1 h.2.1 h.2.2]
termination_by structural x => x

/-- An expression is known by its kind, its node and its parts. -/
theorem Expr.eq_of_parts : ∀ (x : Expr) {y : Expr}, x.kind = y.kind → x.info = y.info → x.parts = y.parts → x = y
  | x, y, hkind, hinfo, hparts => by
    cases x <;> cases y <;> cases hkind <;> simp only [Expr.info] at hinfo <;> subst hinfo
    case ident => rfl
    case lit => rfl
    all_goals simp at hparts
    case composite => rw [typeTerm?_inj _ hparts.1, exprTerms_inj _ hparts.2]
    case funcLit => rw [Signature.term_inj _ hparts.1, Block.term_inj _ hparts.2]
    case type => rw [TypeExpr.term_inj _ hparts]
    case paren => rw [Expr.eq_of_parts _ hparts.1 hparts.2.1 hparts.2.2]
    case unary => rw [Expr.eq_of_parts _ hparts.1 hparts.2.1 hparts.2.2]
    -- The others start with an expression.
    all_goals
      obtain ⟨⟨kind, info, parts⟩, h⟩ := hparts
      rw [Expr.eq_of_parts _ kind info parts]
    case selector => rw [Ident.term_inj h]
    case slice => rw [exprTerm?_inj _ h.1, exprTerm?_inj _ h.2.1, exprTerm?_inj _ h.2.2]
    case typeAssert => rw [TypeExpr.term_inj _ h]
    case call => rw [exprTerms_inj _ h]
    all_goals rw [Expr.eq_of_parts _ h.1 h.2.1 h.2.2]
termination_by structural x => x

theorem exprTerm?_inj : ∀ (x : Option Expr) {y : Option Expr}, exprTerm? x = exprTerm? y → x = y
  | none, none, _ => rfl
  | none, some _, h | some _, none, h => by simp at h
  | some x, some y, h => by
    simp at h
    rw [Expr.eq_of_parts _ h.1 h.2.1 h.2.2]
termination_by structural x => x

theorem exprTerms_inj {listed : Bool} : ∀ (xs : List Expr) {ys : List Expr},
    exprTerms listed xs = exprTerms listed ys → xs = ys
  | [], [], _ => rfl
  | [], _ :: _, h | _ :: _, [], h => by simp at h
  | x :: xs, y :: ys, h => by
    simp at h
    rw [Expr.eq_of_parts _ h.1.1 h.1.2.1 h.1.2.2, exprTerms_inj _ h.2]
termination_by structural xs => xs

theorem Block.term_inj : ∀ (b : Block) {b' : Block}, b.term = b'.term → b = b'
  | ⟨info, stmts⟩, ⟨_, _⟩, h => by
    simp at h
    rw [h.1, statements_inj _ h.2]
termination_by structural b => b

/-- A statement is known by its kind, its node and its parts. -/
theorem Stmt.eq_of_parts : ∀ (s : Stmt) {t : Stmt}, s.kind = t.kind → s.info = t.info → s.parts = t.parts → s = t
  | s, t, hkind, hinfo, hparts => by
    cases s <;> cases t <;> cases hkind <;> simp only [Stmt.info] at hinfo <;> subst hinfo
    case branch => rfl
    all_goals simp at hparts
    case assign => rw [exprTerms_inj _ hparts.1, exprTerms_inj _ hparts.2]
    case decl => rw [Decl.term_inj _ hparts]
    case ret => rw [exprTerms_inj _ hparts]
    case cond =>
      obtain ⟨hinit, htest, hbody, hother⟩ := hparts
      rw [stmtTerm?_inj _ hinit, Expr.eq_of_parts _ htest.1 htest.2.1 htest.2.2, Block.term_inj _ hbody,
        stmtTerm?_inj _ hother]
    case loop =>
      obtain ⟨hinit, htest, hpost, hbody⟩ := hparts
      rw [stmtTerm?_inj _ hinit, exprTerm?_inj _ htest, stmtTerm?_inj _ hpost, Block.term_inj _ hbody]
    case range =>
      obtain ⟨⟨hkey, hvalue⟩, hx, hbody⟩ := hparts
      rw [exprTerm?_inj _ hkey, exprTerm?_inj _ hvalue, Expr.eq_of_parts _ hx.1 hx.2.1 hx.2.2, Block.term_inj _ hbody]
    case switch =>
      obtain ⟨hinit, htag, hclauses⟩ := hparts
      rw [stmtTerm?_inj _ hinit, exprTerm?_inj _ htag, clauseTerms_inj _ hclauses]
    case block => rw [Block.term_inj _ hparts]
    -- What is left is a single expression.
    all_goals rw [Expr.eq_of_parts _ hparts.1 hparts.2.1 hparts.2.2]
termination_by structural s => s

theorem stmtTerm?_inj : ∀ (s : Option Stmt) {t : Option Stmt}, stmtTerm? s = stmtTerm? t → s = t
  | none, none, _ => rfl
  | none, some _, h | some _, none, h => by simp at h
  | some s, some t, h => by
    simp at h
    rw [Stmt.eq_of_parts _ h.1 h.2.1 h.2.2]
termination_by structural s => s

theorem statements_inj : ∀ (ss : List Stmt) {ts : List Stmt}, statements ss = statements ts → ss = ts
  | [], [], _ => rfl
  | [], _ :: _, h | _ :: _, [], h => by simp at h
  | s :: ss, t :: ts, h => by
    simp at h
    rw [Stmt.eq_of_parts _ h.1.1 h.1.2.1 h.1.2.2, statements_inj _ h.2]
termination_by structural ss => ss

theorem clauseTerms_inj : ∀ (cs : List CaseClause) {ds : List CaseClause}, clauseTerms cs = clauseTerms ds → cs = ds
  | [], ds, h => by
    rcases ds with _ | ⟨_ | _, _⟩ <;> simp at h ⊢
  | .case info values body :: cs, ds, h => by
    rcases ds with _ | ⟨_ | _, _⟩ <;> simp at h
    obtain ⟨⟨rfl, hvalues, hbody⟩, hcs⟩ := h
    rw [exprTerms_inj _ hvalues, Block.term_inj _ hbody, clauseTerms_inj _ hcs]
  | .default info body :: cs, ds, h => by
    rcases ds with _ | ⟨_ | _, _⟩ <;> simp at h
    obtain ⟨⟨rfl, hbody⟩, hcs⟩ := h
    rw [Block.term_inj _ hbody, clauseTerms_inj _ hcs]
termination_by structural cs => cs

theorem Decl.term_inj : ∀ (d : Decl) {e : Decl}, d.term = e.term → d = e
  | .types specs, e, h => by
    cases e <;> simp at h
    rw [typeSpecTerms_inj _ h]
  | .vars specs, e, h | .consts specs, e, h => by
    cases e <;> simp at h
    rw [valueSpecTerms_inj _ h]
termination_by structural d => d

theorem typeSpecTerms_inj : ∀ (ss : List TypeSpec) {ts : List TypeSpec}, typeSpecTerms ss = typeSpecTerms ts → ss = ts
  | [], ts, h => by
    rcases ts with _ | ⟨⟨_, _, _, _⟩, _⟩ <;> simp at h ⊢
  | ⟨info, name, isAlias, ty⟩ :: ss, ts, h => by
    rcases ts with _ | ⟨⟨_, _, _, _⟩, _⟩ <;> simp at h
    obtain ⟨⟨rfl, rfl, hname, hty⟩, hss⟩ := h
    rw [Ident.term_inj hname, TypeExpr.term_inj _ hty, typeSpecTerms_inj _ hss]
termination_by structural ss => ss

theorem valueSpecTerms_inj : ∀ (ss : List ValueSpec) {ts : List ValueSpec},
    valueSpecTerms ss = valueSpecTerms ts → ss = ts
  | [], ts, h => by
    rcases ts with _ | ⟨⟨_, _, _, _⟩, _⟩ <;> simp at h ⊢
  | ⟨info, names, ty, values⟩ :: ss, ts, h => by
    rcases ts with _ | ⟨⟨_, _, _, _⟩, _⟩ <;> simp at h
    obtain ⟨⟨rfl, hnames, hty, hvalues⟩, hss⟩ := h
    rw [map_term_inj Ident.term_inj hnames, typeTerm?_inj _ hty, exprTerms_inj _ hvalues, valueSpecTerms_inj _ hss]
termination_by structural ss => ss

end

theorem fieldTerm?_inj {f g : Option Field} (h : fieldTerm? f = fieldTerm? g) : f = g := by
  rcases f with _ | ⟨_, _, _, _, _⟩ <;> rcases g with _ | ⟨_, _, _, _, _⟩
  · rfl
  · simp at h
  · simp at h
  · rw [Field.term_inj _ h]

theorem blockTerm?_inj {b b' : Option Block} (h : blockTerm? b = blockTerm? b') : b = b' := by
  rcases b with _ | ⟨_, _⟩ <;> rcases b' with _ | ⟨_, _⟩
  · rfl
  · simp at h
  · simp at h
  · rw [Block.term_inj _ h]

theorem identTerm?_inj {x y : Option Ident} (h : identTerm? x = identTerm? y) : x = y := by
  rcases x with _ | x <;> rcases y with _ | y
  · rfl
  · simp [Ident.term] at h
  · simp [Ident.term] at h
  · rw [Ident.term_inj h]

theorem TopDecl.term_inj {d e : TopDecl} (h : d.term = e.term) : d = e := by
  rcases d with ⟨info, recv, name, sig, body⟩ | d <;> rcases e with ⟨_, _, _, _, _⟩ | e
  · simp at h
    obtain ⟨rfl, hrecv, hname, hsig, hbody⟩ := h
    rw [fieldTerm?_inj hrecv, Ident.term_inj hname, Signature.term_inj _ hsig, blockTerm?_inj hbody]
  · cases e <;> simp at h
  · cases d <;> simp at h
  · rw [Decl.term_inj _ h]

theorem Import.term_inj {i j : Import} (h : i.term = j.term) : i = j := by
  obtain ⟨info, rename, path⟩ := i
  obtain ⟨_, _, _⟩ := j
  simp at h
  obtain ⟨rfl, rfl, hrename⟩ := h
  rw [identTerm?_inj hrename]

/-- **A file is known by its term.** -/
theorem File.term_inj {f g : File} (h : f.term = g.term) : f = g := by
  obtain ⟨package, imports, decls, span⟩ := f
  obtain ⟨_, _, _, _⟩ := g
  simp at h
  obtain ⟨rfl, hpackage, himports, hdecls⟩ := h
  rw [Ident.term_inj hpackage, map_term_inj Import.term_inj himports, map_term_inj TopDecl.term_inj hdecls]

end CheckHandle
