import CheckHandle.Proofs.Copying
import CheckHandle.Proofs.Resolution

/-!
# What names mean in a copy

A copy is seen from another place than what it was made of. If what a name
means there is told by a function of what it means at the old place, then so is
what it means at every use.
-/

namespace CheckHandle

open List

variable {g : String → String} {ds : List Declaration} {m : Meaning} {p : Plan} {ts : List Term} {v v' : View}
    {ss : List Statement} {d : Declaration} {r' : Option NodeId}

attribute [local simp] Stmt.parts Stmt.statement meaningsAll targetKind

theorem declaredIn_node {x : String} (hd : d ∈ declaredIn x ss) : 0 < countIn d.id ss := by
  obtain ⟨s, hs, hd⟩ := mem_flatMap.mp hd
  have := Statement.declared_node hd
  obtain ⟨ss1, ss2, rfl⟩ := append_of_mem hs
  obtain ⟨kind, info, parts⟩ := s
  simp only [Statement.parts, countIn_append, countIn] at this ⊢
  omega

/-! ## Whether a name is declared in the innermost scope -/

mutual

/-- There are no targets of a short definition in the scope of the term. -/
def Term.Plain : Term → Prop
  | .group kind _ parts | .fixed kind _ parts => kind ≠ .targets ∧ PlainTerms parts
  | .expr .. | .block .. => True

def PlainTerms : List Term → Prop
  | [] => True
  | t :: ts => t.Plain ∧ PlainTerms ts

end

section Plain

variable {x : String}

mutual

theorem Term.Plain.short {d : Declaration} : ∀ {t : Term}, t.Plain → d ∈ t.declared x → d.short = false
  | .expr .., _, hd | .block .., _, hd => by simp [Term.declared] at hd
  | .group kind info parts, h, hd => by
    rw [Term.Plain] at h
    rw [Term.declared, if_neg h.1] at hd
    split at hd
    · exact h.2.short hd
    · cases hd
  | .fixed kind info parts, h, hd => by
    rw [Term.Plain] at h
    rw [Term.declared] at hd
    split at hd
    · obtain ⟨_, _, rfl⟩ := mem_map.mp hd
      rfl
    · split at hd
      · exact h.2.short hd
      · cases hd

theorem PlainTerms.short {d : Declaration} : ∀ {ts : List Term}, PlainTerms ts → d ∈ declaredAll x ts →
    d.short = false
  | [], _, hd => by simp [declaredAll] at hd
  | t :: ts, h, hd => by
    rw [PlainTerms] at h
    rw [declaredAll, mem_append] at hd
    exact hd.elim h.1.short h.2.short

end

/-- The plans differ in whether the name is declared in the innermost scope, and
in nothing else. -/
structure Plan.Alike (p p' : Plan) : Prop where
  decl : p'.view.decl = p.view.decl
  inTurn : p'.inTurn = p.inTurn
  body : p'.body = p.body
  skip : p'.skip = p.skip

theorem View.enter_eq (h : v'.decl = v.decl) : v'.enter = v.enter := by
  rw [View.enter, View.enter, h]

theorem View.after_alike (hds : ∀ d ∈ ds, d.short = false)
    (h : v'.decl = v.decl) : (v'.after ds).decl = (v.after ds).decl := by
  cases ds with
  | nil => exact h
  | cons d ds =>
    have short := hds d mem_cons_self
    have declare : ∀ v : View, v.declare d = ⟨some d.id, true⟩ := fun v => by
      rw [View.declare, short, Bool.false_and]
      rfl
    show ((v'.declare d).after ds).decl = ((v.declare d).after ds).decl
    rw [declare, declare]

theorem Plan.Alike.next {p' : Plan} (h : p.Alike p')
    (hds : ∀ d ∈ ds, d.short = false) : (p.next ds).Alike (p'.next ds) := by
  unfold Plan.next
  rw [h.inTurn]
  split
  · exact ⟨View.after_alike hds h.decl, rfl, h.body, h.skip⟩
  · exact h

theorem Kind.plan_alike {kind : Kind} (h : kind ≠ .targets) (hv : v'.decl = v.decl)
    (parts : List Term) : (kind.plan x parts v).Alike (kind.plan x parts v') := by
  have enter := View.enter_eq hv
  unfold Kind.plan
  split
  all_goals first
    | exact absurd rfl h
    | (rw [enter]; exact ⟨rfl, rfl, rfl, rfl⟩)
    | (rw [enter]; exact ⟨hv, rfl, rfl, rfl⟩)
    | exact ⟨hv, rfl, rfl, rfl⟩

mutual

theorem Term.Plain.meanings_eq {v v' : View} (hv : v'.decl = v.decl) (b : Option View) :
    ∀ {t : Term}, t.Plain → t.meanings x v' b = t.meanings x v b
  | .expr listed kind info parts, _ => by
    rw [Term.meanings, Term.meanings, View.enter_eq hv]
    simp only [useMeaning, hv]
  | .group kind info parts, h => by
    rw [Term.Plain] at h
    rw [Term.meanings, Term.meanings, h.2.meanings_eq (Kind.plan_alike h.1 hv parts)]
  | .fixed kind info parts, h => by
    rw [Term.Plain] at h
    rw [Term.meanings, Term.meanings, h.2.meanings_eq (Kind.plan_alike h.1 hv parts)]
    cases info <;> simp only [useMeaning, hv]
  | .block info ss, _ => by rw [Term.meanings, Term.meanings, View.enter_eq hv]

/-- Where nothing is defined, it does not matter in which scope a name is
declared. -/
theorem PlainTerms.meanings_eq : ∀ {ts : List Term}, PlainTerms ts → ∀ {p p' : Plan}, p.Alike p' →
    meaningsAll x p' ts = meaningsAll x p ts
  | [], _, p, p', _ => by rw [meaningsAll, meaningsAll]
  | t :: ts, h, p, p', hp => by
    rw [PlainTerms] at h
    rw [meaningsAll, meaningsAll, hp.skip, hp.body, h.1.meanings_eq hp.decl,
      h.2.meanings_eq (hp.next fun d hd => h.1.short hd)]

end

end Plain

/-! ## Plain syntax -/

section Syntax

attribute [local simp] Term.Plain PlainTerms Term.absent Ident.term TypeExpr.term typeTerm? Field.term
  fieldTerms Signature.term fixedTerm? Expr.parts exprTerm? exprTerms Block.term typeSpecTerms valueSpecTerms
  Decl.term

theorem plain_exprTerms (listed : Bool) (xs : List Expr) : PlainTerms (exprTerms listed xs) := by
  induction xs with
  | nil => simp
  | cons x xs ih => simp [ih]

theorem plain_idents (xs : List Ident) : PlainTerms (xs.map Ident.term) := by
  induction xs with
  | nil => simp
  | cons x xs ih => simp [ih]

attribute [local simp] plain_idents plain_exprTerms

mutual

theorem TypeExpr.plain : ∀ t : TypeExpr, t.term.Plain
  | .name .. => by simp
  | .pointer _ elem | .slice _ elem => by simp [elem.plain]
  | .array _ len elem => by simp [plain_fixedTerm? len, elem.plain]
  | .map _ key value => by simp [key.plain, value.plain]
  | .func _ sig => by simp [sig.plain]
  | .struct _ fields | .interface _ fields => by simp [plain_fieldTerms fields]

theorem plain_typeTerm? : ∀ t : Option TypeExpr, (typeTerm? t).Plain
  | none => by simp
  | some t => by simp [t.plain]

theorem Field.plain : ∀ f : Field, f.term.Plain
  | ⟨_, names, ty, _, _⟩ => by simp [ty.plain]

theorem plain_fieldTerms : ∀ fs : List Field, PlainTerms (fieldTerms fs)
  | [] => by simp
  | f :: fs => by simp [f.plain, plain_fieldTerms fs]

theorem Signature.plain : ∀ sig : Signature, sig.term.Plain
  | ⟨params, results⟩ => by simp [plain_fieldTerms params, plain_fieldTerms results]

theorem plain_fixedTerm? : ∀ x : Option Expr, (fixedTerm? x).Plain
  | none => by simp
  | some x => by
    rw [fixedTerm?, Term.Plain]
    exact ⟨by cases x <;> nofun, x.plain_parts⟩

theorem Expr.plain_parts : ∀ x : Expr, PlainTerms x.parts
  | .ident .. | .lit .. => by simp
  | .composite _ ty elts => by simp [plain_typeTerm? ty]
  | .funcLit _ sig ⟨_, _⟩ => by simp [sig.plain]
  | .paren .. | .unary .. | .index .. | .binary .. | .keyValue .. => by simp
  | .selector _ _ sel => by simp
  | .slice _ _ lo hi max => by simp [plain_exprTerm? lo, plain_exprTerm? hi, plain_exprTerm? max]
  | .typeAssert _ _ ty => by simp [ty.plain]
  | .call _ _ args _ => by simp
  | .type _ ty => by simp [ty.plain]

theorem plain_exprTerm? : ∀ x : Option Expr, (exprTerm? x).Plain
  | none => by simp
  | some x => by simp

end

theorem plain_typeSpecTerms (specs : List TypeSpec) : PlainTerms (typeSpecTerms specs) := by
  induction specs with
  | nil => simp
  | cons spec specs ih =>
    cases spec
    simp [TypeExpr.plain, ih]

theorem plain_valueSpecTerms (specs : List ValueSpec) : PlainTerms (valueSpecTerms specs) := by
  induction specs with
  | nil => simp
  | cons spec specs ih =>
    cases spec
    simp [plain_typeTerm?, ih]

theorem Decl.plain (d : Decl) : d.term.Plain := by
  cases d with
  | types specs => simp [plain_typeSpecTerms specs]
  | vars specs | consts specs => simp [plain_valueSpecTerms specs]

end Syntax

/-! ## Statements after a declaration of the name -/

section Inner

variable {x : String}

variable {s : Stmt} {e : NodeId} {xs : List Expr} {r : Option NodeId}

/-- Only a short definition tells in which scope a name is declared. -/
theorem Stmt.meanings_alike (h : ∀ info lhs rhs, s ≠ .assign info lhs .define rhs) (hv : v'.decl = v.decl) :
    meaningsAll x (s.kind.plan x s.parts v') s.parts = meaningsAll x (s.kind.plan x s.parts v) s.parts := by
  have plain : s.kind ≠ .targets → PlainTerms s.parts → meaningsAll x (s.kind.plan x s.parts v') s.parts
        = meaningsAll x (s.kind.plan x s.parts v) s.parts := fun hkind hparts =>
    hparts.meanings_eq (Kind.plan_alike hkind hv _)
  cases s with
  | cond | loop | range | switch => simp only [Stmt.kind, Kind.plan, View.enter_eq hv]
  | assign info lhs op rhs =>
    have hop : (op == .define) = false := by
      rw [beq_eq_false_iff_ne]
      rintro rfl
      exact h info lhs rhs rfl
    refine plain (by rintro ⟨⟩) ?_
    simp [hop, Term.Plain, PlainTerms, plain_exprTerms]
  | decl info d =>
    refine plain (by rintro ⟨⟩) ?_
    simp [PlainTerms, d.plain]
  | ret info results =>
    refine plain (by rintro ⟨⟩) ?_
    simp [Term.Plain, PlainTerms, plain_exprTerms]
  | block info body =>
    obtain ⟨inner, stmts⟩ := body
    refine plain (by rintro ⟨⟩) ?_
    simp [Block.term, Term.Plain, PlainTerms]
  | expr | incDec | go | defer | branch =>
    refine plain (by rintro ⟨⟩) ?_
    simp [Term.Plain, PlainTerms]

/-- Only a short definition declares a name shortly. -/
theorem Stmt.declared_short (hd : d ∈ s.statement.declared x)
    (short : d.short = true) : ∃ info lhs rhs, s = .assign info lhs .define rhs := by
  refine Classical.not_not.mp fun h => ?_
  have plain : PlainTerms s.parts → False := fun plain => by
    have exported : d ∈ declaredAll x s.parts := by
      unfold Statement.declared at hd
      split at hd
      · exact hd
      · cases hd
    rw [plain.short exported] at short
    cases short
  cases s with
  | assign info lhs op rhs =>
    have hop : (op == .define) = false := by
      rw [beq_eq_false_iff_ne]
      rintro rfl
      exact h ⟨info, lhs, rhs, rfl⟩
    refine plain ?_
    simp [hop, Term.Plain, PlainTerms, plain_exprTerms]
  | decl info d =>
    refine plain ?_
    simp [PlainTerms, d.plain]
  | _ => simp [Statement.declared, Statement.kind, Stmt.kind, Kind.exports] at hd

theorem declared_define (info : Info) (lhs rhs : List Expr) : (Stmt.assign info lhs .define rhs).statement.declared x
      = ((exprTerms false lhs).filterMap (Term.named? x)).map (⟨true, ·⟩) := by
  simp [Statement.declared, Statement.kind, Statement.parts, Stmt.kind, Kind.exports, declaredAll, Term.declared]

theorem meanings_define (info : Info) (lhs rhs : List Expr) (v : View) :
    meaningsAll x ((Kind.assign .define).plan x (Stmt.assign info lhs .define rhs).parts v)
        (Stmt.assign info lhs .define rhs).parts
      = meaningsAll x ⟨v, false, none, !v.inner⟩ (exprTerms false lhs)
        ++ meaningsAll x ⟨v, true, none, false⟩ (exprTerms true rhs) := by
  simp [Kind.plan, Term.named?, Term.meanings, Plan.next]

/-- The name itself is a use and nothing else. -/
theorem Expr.meanings_named {y : Expr} {listed : Bool} (h : (y.term listed).named? x = some e)
    (v : View) (b : Option View) : (y.term listed).meanings x v b = [.use e v.decl] := by
  cases y with
  | ident info name =>
    simp only [Expr.term, Expr.kind, Expr.info, Expr.parts, Term.named?] at h
    split at h
    · cases h
      rename_i hname
      simp [Expr.term, Expr.kind, Expr.info, Expr.parts, Term.meanings, useMeaning, Kind.uses, hname]
    · cases h
  | _ => cases h

theorem exprTerms_cons (listed : Bool) (y : Expr) (ys : List Expr) :
    exprTerms listed (y :: ys) = y.term listed :: exprTerms listed ys := by
  rw [exprTerms]
  rfl

/-- The name itself among targets is a use if it is not defined there. -/
theorem meanings_targets (hv : v'.decl = v.decl)
    (hm : m ∈ meaningsAll x ⟨v', false, none, false⟩ (exprTerms false xs)) :
    m ∈ meaningsAll x ⟨v, false, none, true⟩ (exprTerms false xs) ∨
      ∃ e ∈ (exprTerms false xs).filterMap (Term.named? x), m = .use e v.decl := by
  induction xs with
  | nil => simp [exprTerms] at hm
  | cons y xs ih =>
    rw [exprTerms_cons, meaningsAll_cons, mem_append] at hm
    rw [exprTerms_cons, meaningsAll_cons, filterMap_cons]
    rcases hm with hm | hm
    · simp only [meaningsAll, Bool.false_and, append_nil] at hm
      rcases hnamed : (y.term false).named? x with _ | e
      · refine .inl (mem_append_left _ ?_)
        have plain : (y.term false).Plain := by simp [Expr.term, Term.Plain]
        rw [plain.meanings_eq hv] at hm
        simpa only [meaningsAll, hnamed, Option.isSome_none, Bool.and_false, append_nil] using hm
      · have use := Expr.meanings_named hnamed v' none
        refine .inr ⟨e, mem_cons_self, ?_⟩
        rw [← hv]
        exact mem_singleton.mp (use ▸ hm)
    · rcases ih hm with hm | ⟨e, he, rfl⟩
      · exact .inl (mem_append_right _ hm)
      · refine .inr ⟨e, ?_, rfl⟩
        cases (y.term false).named? x with
        | none => exact he
        | some => exact mem_cons_of_mem _ he

/-- In a scope that declares the name already, a statement means what it means
elsewhere, and defines nothing. -/
theorem Stmt.meanings_inner (hm : m ∈ meaningsAll x (s.kind.plan x s.parts ⟨r, true⟩) s.parts) :
    m ∈ meaningsAll x (s.kind.plan x s.parts ⟨r, false⟩) s.parts ∨
      ∃ e, ⟨true, e⟩ ∈ s.statement.declared x ∧ m = .use e r := by
  have same : (⟨r, true⟩ : View).decl = (⟨r, false⟩ : View).decl := rfl
  by_cases define : ∃ info lhs rhs, s = .assign info lhs .define rhs
  · obtain ⟨info, lhs, rhs, rfl⟩ := define
    rw [declared_define]
    simp only [Stmt.kind, meanings_define, mem_append] at hm ⊢
    rcases hm with hm | hm
    · rcases meanings_targets same hm with hm | ⟨e, he, rfl⟩
      · exact .inl (.inl hm)
      · exact .inr ⟨e, mem_map_of_mem he, rfl⟩
    · refine .inl (.inr ?_)
      have alike : Plan.Alike ⟨⟨r, false⟩, true, none, false⟩ ⟨⟨r, true⟩, true, none, false⟩ := ⟨rfl, rfl, rfl, rfl⟩
      rwa [(plain_exprTerms true rhs).meanings_eq alike] at hm
  · rw [Stmt.meanings_alike (fun info lhs rhs h => define ⟨info, lhs, rhs, h⟩) same] at hm
    exact .inl hm

theorem count_pos_of_filterMap (he : e ∈ ts.filterMap (Term.named? x)) : 0 < countAll e ts := by
  have : ⟨true, e⟩ ∈ (ts.filterMap (Term.named? x)).map (⟨true, ·⟩ : NodeId → Declaration) := mem_map_of_mem he
  exact countAll_pos_of_named? this

/-- Targets do not mean what they define. -/
theorem meanings_targets_decl {skip : Bool}
    (he : e ∈ (exprTerms false xs).filterMap (Term.named? x)) (hv : v.decl ≠ some e)
    (once : ∀ i, countAll i (exprTerms false xs) ≤ 1)
    (hm : m ∈ meaningsAll x ⟨v, false, none, skip⟩ (exprTerms false xs)) : m.decl ≠ some e := by
  induction xs with
  | nil => simp [exprTerms] at hm
  | cons y xs ih =>
    rw [exprTerms_cons] at he once
    rw [exprTerms_cons, meaningsAll_cons, mem_append] at hm
    -- what stands in one of the targets does not stand in another
    have apart : ∀ {ts}, m ∈ meaningsAll x ⟨v, false, none, skip⟩ ts → countAll e ts = 0 → m.decl ≠ some e := by
      intro ts hm absent
      rcases meaningsAll_decl rfl hm with h | ⟨d, h, hd⟩
      · exact h ▸ hv
      · rw [h]
        rintro ⟨⟩
        omega
    have once' : (y.term false).count e + countAll e (exprTerms false xs) ≤ 1 := once e
    rw [filterMap_cons] at he
    rcases hnamed : (y.term false).named? x with _ | e'
    · rw [hnamed] at he
      have := count_pos_of_filterMap he
      rcases hm with hm | hm
      · refine apart hm ?_
        simp only [countAll]
        omega
      · exact ih he (fun i => Nat.le_trans (Nat.le_add_left _ _) (once i)) hm
    · rw [hnamed] at he
      rcases hm with hm | hm
      · simp only [meaningsAll, append_nil, Expr.meanings_named hnamed] at hm
        split at hm
        · cases hm
        · rw [mem_singleton.mp hm]
          exact hv
      · rcases mem_cons.mp he with rfl | he
        · have := Term.count_pos_of_named? hnamed
          exact apart hm (by omega)
        · exact ih he (fun i => Nat.le_trans (Nat.le_add_left _ _) (once i)) hm

/-- What a name means where it meant `r` before its first declaration, if a
short definition comes too late to declare it. -/
def overlay (first : Option Declaration) (r : Option NodeId) : Option NodeId → Option NodeId
  | some d => if first = some ⟨true, d⟩ then r else some d
  | none => none

theorem overlay_of_ne {first : Option Declaration}
    (h : ∀ d, r' = some d → first ≠ some ⟨true, d⟩) : overlay first r r' = r' := by
  cases r' with
  | none => rfl
  | some d => exact if_neg (h d rfl)

theorem Meaning.carry_of_eq {ρ : Option NodeId → Option NodeId} (h : ρ m.decl = m.decl) : m.carry id ρ = m := by
  cases m <;> exact congrArg _ h

theorem View.after_short (inner : v.inner = true) (short : ∀ d ∈ ds, d.short = true) : v.after ds = v := by
  induction ds with
  | nil => rfl
  | cons d ds ih =>
    have declare : v.declare d = v := by
      rw [View.declare, short d mem_cons_self, inner]
      rfl
    show (v.declare d).after ds = v
    rw [declare]
    exact ih fun e he => short e (mem_cons_of_mem _ he)

/-- A statement does not mean what it is the first to define. -/
theorem Stmt.meanings_declared (he : ⟨true, e⟩ ∈ s.statement.declared x) (hr : r ≠ some e)
    (once : ∀ i, countAll i s.parts ≤ 1)
    (hm : m ∈ meaningsAll x (s.kind.plan x s.parts ⟨r, false⟩) s.parts) :
    m.decl ≠ some e := by
  obtain ⟨info, lhs, rhs, rfl⟩ := Stmt.declared_short he rfl
  have split : ∀ i, countAll i (exprTerms false lhs) + countAll i (exprTerms true rhs) ≤ 1 := fun i => by
    have := once i
    simp only [Stmt.parts, countAll, Term.count, countInfo?] at this
    omega
  rw [declared_define] at he
  obtain ⟨_, he, ⟨⟩⟩ := mem_map.mp he
  simp only [Stmt.kind, meanings_define, mem_append] at hm
  rcases hm with hm | hm
  · exact meanings_targets_decl he hr (fun i => Nat.le_trans (Nat.le_add_right _ _) (split i)) hm
  · rcases meaningsAll_decl rfl hm with h | ⟨d, h, hd⟩
    · rw [h]
      exact hr
    · rw [h]
      rintro ⟨⟩
      have := count_pos_of_filterMap he
      have := split e
      omega

/-- Before the end of its statement, a definition is not meant. -/
theorem meanings_before_first (once : ∀ i, countIn i [s.statement] ≤ 1)
    (foreign : ∀ d, r = some d → countIn d [s.statement] = 0)
    (later : ∀ d ∈ ds, countIn d.id [s.statement] = 0 ∧ r ≠ some d.id)
    (hm : m ∈ meaningsIn x ⟨r, false⟩ [s.statement]) :
    overlay (s.statement.declared x ++ ds).head? r m.decl = m.decl := by
  refine overlay_of_ne fun d hd first => ?_
  rcases hdeclared : s.statement.declared x with _ | ⟨d', ds'⟩
  · rw [hdeclared, nil_append] at first
    obtain ⟨absent, hr⟩ := later _ (mem_of_mem_head? first)
    rcases meaningsIn_decl hm with h | ⟨d', h, hd'⟩
    · exact hr (h.symm.trans hd)
    · cases h.symm.trans hd
      rw [absent] at hd'
      cases hd'
  · rw [hdeclared] at first
    cases first
    have he : ⟨true, d⟩ ∈ s.statement.declared x := by
      rw [hdeclared]
      exact mem_cons_self
    have inside := Statement.declared_node he
    have split : ∀ i, s.info.count i + countAll i s.parts ≤ 1 := fun i => by
      simpa [countIn] using once i
    have hr : r ≠ some d := fun h => by
      have := foreign d h
      simp only [countIn, Stmt.statement, Statement.parts] at this inside
      omega
    simp only [Stmt.statement, meaningsIn, append_nil] at hm
    rcases mem_cons.mp hm with rfl | hm
    · exact hr hd
    · exact Stmt.meanings_declared he hr (fun i => Nat.le_trans (Nat.le_add_left _ _) (split i)) hm hd

/-- Past the first declaration of the name. -/
theorem meanings_after_first (declares : s.statement.declared x ≠ [])
    (apart : ∀ d ∈ s.statement.declared x, countIn d.id ss = 0)
    (hm : m ∈ meaningsIn x (View.after ⟨r, true⟩ (s.statement.declared x)) ss) :
    ∃ m0 ∈ meaningsIn x (View.after ⟨r, false⟩ (s.statement.declared x)) ss,
      m = m0.carry id (overlay (s.statement.declared x).head? r) := by
  rcases hdeclared : s.statement.declared x with _ | ⟨⟨short, d⟩, ds⟩
  · exact absurd hdeclared declares
  rw [hdeclared] at hm
  cases short with
  | false =>
    -- both scopes have the new declaration
    refine ⟨m, hm, (Meaning.carry_of_eq (overlay_of_ne fun d' _ first => ?_)).symm⟩
    cases first
  | true =>
    have all : ∀ d' ∈ ds, d'.short = true := by
      have he : ⟨true, d⟩ ∈ s.statement.declared x := hdeclared ▸ mem_cons_self
      obtain ⟨info, lhs, rhs, rfl⟩ := Stmt.declared_short he rfl
      rw [declared_define] at hdeclared
      intro d' hd'
      have : d' ∈ ((exprTerms false lhs).filterMap (Term.named? x)).map (⟨true, ·⟩ : NodeId → Declaration) :=
        hdeclared ▸ mem_cons_of_mem _ hd'
      obtain ⟨_, -, rfl⟩ := mem_map.mp this
      rfl
    have outer : View.after ⟨r, true⟩ (⟨true, d⟩ :: ds) = ⟨r, true⟩ :=
      View.after_short rfl (forall_mem_cons.mpr ⟨rfl, all⟩)
    have inner : View.after ⟨r, false⟩ (⟨true, d⟩ :: ds) = ⟨some d, true⟩ := by
      show View.after ⟨some d, true⟩ ds = _
      exact View.after_short rfl all
    rw [outer] at hm
    rw [inner]
    -- the rest sees the old meaning for the new one
    have carried := meaningsIn_carry (φ := id) (ρ := overlay (some ⟨true, d⟩) r) (g := id) (x := x)
      (fun _ => .rfl) ss (fun i hi => by
        refine overlay_of_ne fun d' hd' first => ?_
        cases hd'
        cases first
        have := apart ⟨true, d⟩ (hdeclared ▸ mem_cons_self)
        simp only at this
        omega) ⟨some d, true⟩
    have seen : View.carry (overlay (some ⟨true, d⟩) r) ⟨some d, true⟩ = ⟨r, true⟩ := by
      rw [View.carry, overlay, if_pos rfl]
    rw [seen, relabelIn_id] at carried
    rw [carried] at hm
    obtain ⟨m0, hm0, rfl⟩ := mem_map.mp hm
    exact ⟨m0, hm0, rfl⟩

/-- Statements in a scope that declares a name already. A use means what it
means elsewhere, or what the name meant before, if that is what a short
definition would be the first to declare. What it would define is a use. -/
theorem meaningsIn_inner : ∀ {ss : List Stmt}, (∀ i, countIn i (statements ss) ≤ 1) →
    (∀ d, r = some d → countIn d (statements ss) = 0) →
    ∀ {m}, m ∈ meaningsIn x ⟨r, true⟩ (statements ss) → (∃ m0 ∈ meaningsIn x ⟨r, false⟩ (statements ss),
        m = m0.carry id (overlay (declaredIn x (statements ss)).head? r)) ∨
      ∃ e, ⟨true, e⟩ ∈ declaredIn x (statements ss) ∧ m = .use e r
  | [], _, _, m, hm => by simp [statements, meaningsIn] at hm
  | s :: ss, once, foreign, m, hm => by
    have cons : statements (s :: ss) = [s.statement] ++ statements ss := by
      rw [statements]
      rfl
    have declared : declaredIn x [s.statement] = s.statement.declared x := by
      simp [declaredIn]
    have count : ∀ i, countIn i (statements (s :: ss))
        = countIn i [s.statement] + countIn i (statements ss) := fun i => by
      rw [cons, countIn_append]
    simp only [cons, meaningsIn_append, declaredIn_append, declared] at hm ⊢
    rcases mem_append.mp hm with hm | hm
    · -- the statement itself
      have hm' : m ∈ meaningsIn x ⟨r, false⟩ [s.statement] ∨
          ∃ e, ⟨true, e⟩ ∈ s.statement.declared x ∧ m = .use e r := by
        simp only [Stmt.statement, meaningsIn, append_nil, mem_cons] at hm ⊢
        rcases hm with rfl | hm
        · exact .inl (.inl rfl)
        · exact (Stmt.meanings_inner hm).imp_left .inr
      rcases hm' with hm' | ⟨e, he, rfl⟩
      · refine .inl ⟨m, mem_append_left _ hm', (Meaning.carry_of_eq ?_).symm⟩
        refine meanings_before_first (fun i => ?_) (fun d hd => ?_) (fun d hd => ?_) hm'
        · have := once i
          have := count i
          omega
        · have := foreign d hd
          have := count d
          omega
        · have : 0 < countIn d.id (statements ss) := declaredIn_node hd
          have := once d.id
          have := count d.id
          refine ⟨by omega, fun hr => ?_⟩
          have := foreign d.id hr
          omega
      · exact .inr ⟨e, mem_append_left _ he, rfl⟩
    · by_cases declares : s.statement.declared x = []
      · simp only [declares] at hm ⊢
        have once' : ∀ i, countIn i (statements ss) ≤ 1 := fun i => by
          have := once i
          have := count i
          omega
        have foreign' : ∀ d, r = some d → countIn d (statements ss) = 0 := fun d hd => by
          have := foreign d hd
          have := count d
          omega
        rcases meaningsIn_inner once' foreign' hm with ⟨m0, hm0, rfl⟩ | ⟨e, he, rfl⟩
        · exact .inl ⟨m0, mem_append_right _ hm0, rfl⟩
        · exact .inr ⟨e, he, rfl⟩
      · have apart : ∀ d ∈ s.statement.declared x, countIn d.id (statements ss) = 0 := fun d hd => by
          have : 0 < countIn d.id [s.statement] := declaredIn_node (declared ▸ hd)
          have := once d.id
          have := count d.id
          omega
        obtain ⟨m0, hm0, rfl⟩ := meanings_after_first declares apart hm
        refine .inl ⟨m0, mem_append_right _ hm0, ?_⟩
        rcases hdeclared : s.statement.declared x with _ | ⟨d, ds⟩
        · exact absurd hdeclared declares
        · rfl

end Inner

/-! ## Copies seen from elsewhere -/

/-- What a use means in a copy of `ss`, if it meant `r` and the copy is seen from
`w`. A declaration in `ss` has its copy, unless it is a short definition that
finds the name declared. -/
def inCopy (x : String) (φ : NodeId → NodeId) (ss : List Statement) (w : View) : (r : Option NodeId) → Option NodeId
  | some d =>
    if 0 < countIn d ss ∧ ¬ (w.inner = true ∧ (declaredIn x ss).head? = some ⟨true, d⟩) then
      some (φ d)
    else w.decl
  | none => w.decl

section Copied

variable {x : String} {φ : NodeId → NodeId} {ss : List Stmt} {ss' : List Statement}
  {r : Option NodeId} {w : View}

theorem inCopy_of_foreign (foreign : ∀ d, r = some d → countIn d (statements ss) = 0) :
    inCopy x φ (statements ss) w r = w.decl := by
  cases r with
  | none => rfl
  | some d =>
    refine if_neg fun h => ?_
    have := foreign d rfl
    omega

/-- A use in a copy is the copy of a use, or of what a short definition would
have declared. -/
theorem CopiedBy.use_resolved (copied : CopiedBy φ g (statements ss) ss') (keeps : ∀ y, g y = x ↔ y = x)
    (once : ∀ i, countIn i (statements ss) ≤ 1)
    (foreign : ∀ d, r = some d → countIn d (statements ss) = 0) {u' : NodeId}
    (hu : .use u' r' ∈ meaningsIn x w ss') :
    ∃ u, u' = φ u ∧ ((∃ r0, .use u r0 ∈ meaningsIn x ⟨r, false⟩ (statements ss) ∧
        r' = inCopy x φ (statements ss) w r0) ∨
      w.inner = true ∧ ⟨true, u⟩ ∈ declaredIn x (statements ss) ∧ r' = w.decl) := by
  -- the copy is carried from the view that differs from `w` in the declaration alone
  let ρ : Option NodeId → Option NodeId := fun r0 => if r0 = r then w.decl else r0.map φ
  have hr : ρ r = w.decl := if_pos rfl
  have inside : ∀ d, 0 < countIn d (statements ss) → ρ (some d) = some (φ d) := fun d hd => by
    refine if_neg fun h => ?_
    have := foreign d h.symm
    omega
  have carried := meaningsIn_carry keeps (statements ss) inside ⟨r, w.inner⟩
  have seen : View.carry ρ ⟨r, w.inner⟩ = w := by rw [View.carry, hr]
  rw [seen, ← copied.eq_relabel] at carried
  rw [carried] at hu
  obtain ⟨m, hm, hcarry⟩ := mem_map.mp hu
  cases m with
  | stmt => cases hcarry
  | use u r1 =>
  cases hcarry
  refine ⟨u, rfl, ?_⟩
  cases hinner : w.inner with
  | false =>
    rw [hinner] at hm
    refine .inl ⟨r1, hm, ?_⟩
    rcases meaningsIn_decl hm with h | ⟨d, h, hd⟩
    · cases h
      rw [inCopy_of_foreign foreign]
      exact hr
    · cases h
      rw [inside d hd, inCopy, if_pos ⟨hd, fun h => by rw [hinner] at h; cases h.1⟩]
  | true =>
    rw [hinner] at hm
    rcases meaningsIn_inner once foreign hm with ⟨m0, hm0, hm⟩ | ⟨e, he, hm⟩
    · cases m0 with
      | stmt => cases hm
      | use u0 r0 =>
        cases hm
        refine .inl ⟨r0, hm0, ?_⟩
        rcases meaningsIn_decl hm0 with h | ⟨d, h, hd⟩
        · cases h
          rw [inCopy_of_foreign foreign, overlay_of_ne fun d hd first => ?_]
          · exact hr
          · have := declaredIn_node (mem_of_mem_head? first)
            have := foreign d hd
            simp only at *
            omega
        · cases h
          rw [overlay, inCopy]
          by_cases first : (declaredIn x (statements ss)).head? = some ⟨true, d⟩
          · rw [if_pos first, if_neg fun h => h.2 ⟨hinner, first⟩]
            exact hr
          · rw [if_neg first, if_pos ⟨hd, fun h => first h.2⟩]
            exact inside d hd
    · cases hm
      exact .inr ⟨rfl, he, hr⟩

end Copied

end CheckHandle
