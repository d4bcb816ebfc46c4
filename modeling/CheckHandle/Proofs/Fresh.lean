import CheckHandle.Proofs.Term

/-!
# Fresh nodes

Nodes made during expansion take identities that the counter has not given
out, each once. The same holds of the copies that `renumber` makes, which is shown
for terms: the term of a copy is the copy of the term.
-/

namespace CheckHandle

variable {α β : Type}

variable {f : α → Fresh β} {a : α} {n' : NodeId} {m : Fresh α}

theorem ok_of_bind {ε : Type} {x : Except ε α} {f : α → Except ε β} {b : β} (h : (x >>= f) = .ok b) :
    ∃ a, x = .ok a ∧ f a = .ok b := by
  cases x with
  | error e => cases h
  | ok a => exact ⟨a, rfl, h⟩

theorem error_of_bind {ε : Type} {x : Except ε α} {f : α → Except ε β} {e : ε} (h : (x >>= f) = .error e)
    (fine : ∀ a, f a ≠ .error e) : x = .error e := by
  cases x with
  | error => cases h; rfl
  | ok a => exact absurd h (fine a)

theorem fresh_pure {b : α} {n : NodeId} : (pure a : Fresh α) n = (b, n') ↔ b = a ∧ n' = n := by
  constructor
  · intro h
    cases h
    exact ⟨rfl, rfl⟩
  · rintro ⟨rfl, rfl⟩
    rfl

theorem fresh_bind {b : β} {n : NodeId} : (m >>= f) n = (b, n') ↔ ∃ a n1, m n = (a, n1) ∧ f a n1 = (b, n') := by
  have step : (m >>= f) n = f (m n).1 (m n).2 := rfl
  rw [step]
  constructor
  · intro h
    exact ⟨_, _, rfl, h⟩
  · rintro ⟨a, n1, hm, hf⟩
    rw [hm]
    exact hf

/-- What the result holds was at hand before, as counted by `base`, or is
new; and what is new stands there once. -/
def Draws (base : NodeId → Nat) (count : NodeId → α → Nat) (m : Fresh α) : Prop :=
  ∀ ⦃n a n'⦄, m n = (a, n') → ∀ i, count i a + spare n' i ≤ base i + spare n i

/-- Everything in the result is new. -/
abbrev DrawsAll (count : NodeId → α → Nat) (m : Fresh α) : Prop := Draws (fun _ => 0) count m

namespace Draws

variable {base : NodeId → Nat} {count : NodeId → α → Nat} {count' : NodeId → β → Nat}

theorem pure (h : ∀ i, count i a ≤ base i) : Draws base count (pure a) := by
  intro n b n' hb i
  rw [fresh_pure] at hb
  obtain ⟨rfl, rfl⟩ := hb
  have := h i
  omega

theorem bind (hm : DrawsAll count m) (hf : ∀ a, Draws (fun i => base i + count i a) count' (f a)) :
    Draws base count' (m >>= f) := by
  intro n b n' h i
  rw [fresh_bind] at h
  obtain ⟨a, n1, ha, hb⟩ := h
  have h1 : count i a + spare n1 i ≤ 0 + spare n i := hm ha i
  have h2 : count' i b + spare n' i ≤ base i + count i a + spare n1 i := hf a hb i
  omega

/-- A step that takes up all of what the step before it leaves. -/
theorem andThen (hm : Draws base count m) (hf : ∀ a, Draws (fun i => count i a) count' (f a)) : Draws base count' (m >>= f) := by
  intro n b n' h i
  rw [fresh_bind] at h
  obtain ⟨a, n1, ha, hb⟩ := h
  have h1 : count i a + spare n1 i ≤ base i + spare n i := hm ha i
  have h2 : count' i b + spare n' i ≤ count i a + spare n1 i := hf a hb i
  omega

end Draws

theorem freshInfo_draws : DrawsAll Info.count freshInfo := by
  rintro n a n' h i
  cases h
  rw [Nat.zero_add]
  exact Nat.le_of_eq (spare_succ n i)

theorem Info.renumber_draws (info : Info) : DrawsAll Info.count info.renumber := by
  rintro n a n' h i
  cases h
  rw [Nat.zero_add]
  exact Nat.le_of_eq (spare_succ n i)

/-! ## Copies -/

def renumberInfo? : Option Info → Fresh (Option Info)
  | none => return none
  | some info => do return some (← info.renumber)

mutual

/-- The term with fresh identities. -/
def Term.renumber : Term → Fresh Term
  | .expr listed kind info parts => do return .expr listed kind (← info.renumber) (← renumberAll parts)
  | .group kind info parts => do return .group kind (← renumberInfo? info) (← renumberAll parts)
  | .fixed kind info parts => do return .fixed kind (← renumberInfo? info) (← renumberAll parts)
  | .block info ss => do return .block (← info.renumber) (← renumberIn ss)

def renumberAll : List Term → Fresh (List Term)
  | [] => return []
  | t :: ts => do return (← t.renumber) :: (← renumberAll ts)

def renumberIn : List Statement → Fresh (List Statement)
  | [] => return []
  | .mk kind info parts :: ss => do
    return .mk kind (← info.renumber) (← renumberAll parts) :: (← renumberIn ss)

end

theorem renumberInfo?_draws : ∀ info : Option Info, DrawsAll countInfo? (renumberInfo? info)
  | none => .pure fun i => Nat.le_refl 0
  | some info => .bind info.renumber_draws fun _ => .pure fun i => by simp [countInfo?]

mutual

theorem Term.renumber_draws : ∀ t : Term, DrawsAll Term.count t.renumber
  | .expr _ _ info parts => .bind info.renumber_draws fun _ => .bind (renumberAll_draws parts) fun _ =>
      .pure fun i => by simp [Term.count]
  | .group _ info parts | .fixed _ info parts =>
    .bind (renumberInfo?_draws info) fun _ => .bind (renumberAll_draws parts) fun _ =>
      .pure fun i => by simp [Term.count]
  | .block info ss => .bind info.renumber_draws fun _ => .bind (renumberIn_draws ss) fun _ =>
      .pure fun i => by simp [Term.count]

theorem renumberAll_draws : ∀ ts : List Term, DrawsAll countAll (renumberAll ts)
  | [] => .pure fun i => Nat.le_refl 0
  | t :: ts => .bind t.renumber_draws fun _ => .bind (renumberAll_draws ts) fun _ =>
      .pure fun i => by simp [countAll]

theorem renumberIn_draws : ∀ ss : List Statement, DrawsAll countIn (renumberIn ss)
  | [] => .pure fun i => Nat.le_refl 0
  | .mk _ info parts :: ss => .bind info.renumber_draws fun _ => .bind (renumberAll_draws parts) fun _ =>
      .bind (renumberIn_draws ss) fun _ => .pure fun i => by simp [countIn, Nat.add_assoc]

end

/-! ### The term of a copy -/

theorem fresh_bind_apply (m : Fresh α) (f : α → Fresh β) (n : NodeId) : (m >>= f) n = f (m n).1 (m n).2 := rfl

theorem fresh_map_apply (f : α → β) (m : Fresh α) (n : NodeId) : (f <$> m) n = (f (m n).1, (m n).2) := rfl

theorem fresh_pure_apply (a : α) (n : NodeId) : (pure a : Fresh α) n = (a, n) := rfl

theorem Info.renumber_apply (info : Info) (n : NodeId) : info.renumber n = (⟨n, info.span⟩, n + 1) := rfl

theorem Ident.term_renumber (x : Ident) (n : NodeId) :
    x.term.renumber n = ((x.renumber n).1.term, (x.renumber n).2) := rfl

theorem term_renumberIdents : ∀ (xs : List Ident) (n : NodeId), renumberAll (xs.map Ident.term) n =
    ((xs.mapM Ident.renumber n).1.map Ident.term, (xs.mapM Ident.renumber n).2)
  | [], n => rfl
  | x :: xs, n => by
    simp [renumberAll, fresh_bind_apply, fresh_map_apply, Ident.term_renumber, term_renumberIdents xs]

theorem Expr.node_renumber (x : Expr) (n : NodeId) :
    (x.renumber n).1.kind = x.kind ∧ (x.renumber n).1.info = ⟨n, x.info.span⟩ := by
  cases x <;> exact ⟨rfl, rfl⟩

theorem Stmt.node_renumber (s : Stmt) (n : NodeId) :
    (s.renumber n).1.kind = s.kind ∧ (s.renumber n).1.info = ⟨n, s.info.span⟩ := by
  cases s <;> exact ⟨rfl, rfl⟩

attribute [local simp] fresh_bind_apply fresh_map_apply fresh_pure_apply Info.renumber_apply Term.renumber renumberAll
  renumberIn renumberInfo? Term.absent Ident.term_renumber term_renumberIdents Expr.node_renumber
  Stmt.node_renumber TypeExpr.renumber TypeExpr.term renumberType? typeTerm? Field.renumber Field.term
  renumberFields fieldTerms Signature.renumber Signature.term renumberExpr? fixedTerm? Expr.renumber Expr.parts
  exprTerm? renumberExprs exprTerms Block.renumber Block.term Stmt.renumber Stmt.parts renumberStmt? stmtTerm?
  renumberStmts statements renumberClauses clauseTerms Decl.renumber Decl.term renumberTypeSpecs typeSpecTerms
  renumberValueSpecs valueSpecTerms

mutual

theorem TypeExpr.term_renumber : ∀ (t : TypeExpr) (n : NodeId),
    t.term.renumber n = ((t.renumber n).1.term, (t.renumber n).2)
  | .name .., n => by simp
  | .pointer _ elem, n | .slice _ elem, n => by simp [elem.term_renumber]
  | .array _ len elem, n => by simp [term_renumberFixed? len, elem.term_renumber]
  | .map _ key value, n => by simp [key.term_renumber, value.term_renumber]
  | .func _ sig, n => by simp [sig.term_renumber]
  | .struct _ fields, n | .interface _ fields, n => by simp [term_renumberFields fields]

theorem term_renumberType? : ∀ (t : Option TypeExpr) (n : NodeId),
    (typeTerm? t).renumber n = (typeTerm? (renumberType? t n).1, (renumberType? t n).2)
  | none, n => by simp
  | some t, n => by simp [t.term_renumber]

theorem Field.term_renumber : ∀ (f : Field) (n : NodeId), f.term.renumber n = ((f.renumber n).1.term, (f.renumber n).2)
  | ⟨_, names, ty, _, _⟩, n => by simp [ty.term_renumber]

theorem term_renumberFields : ∀ (fs : List Field) (n : NodeId),
    renumberAll (fieldTerms fs) n = (fieldTerms (renumberFields fs n).1, (renumberFields fs n).2)
  | [], n => by simp
  | f :: fs, n => by simp [f.term_renumber, term_renumberFields fs]

theorem Signature.term_renumber : ∀ (sig : Signature) (n : NodeId),
    sig.term.renumber n = ((sig.renumber n).1.term, (sig.renumber n).2)
  | ⟨params, results⟩, n => by simp [term_renumberFields params, term_renumberFields results]

theorem term_renumberFixed? : ∀ (x : Option Expr) (n : NodeId),
    (fixedTerm? x).renumber n = (fixedTerm? (renumberExpr? x n).1, (renumberExpr? x n).2)
  | none, n => by simp
  | some x, n => by simp [x.parts_renumber]

/-- An expression draws its own identity before its parts. -/
theorem Expr.parts_renumber : ∀ (x : Expr) (n : NodeId),
    renumberAll x.parts (n + 1) = ((x.renumber n).1.parts, (x.renumber n).2)
  | .ident .., n | .lit .., n => by simp
  | .composite _ ty elts, n => by simp [term_renumberType? ty, term_renumberExprs false elts]
  | .funcLit _ sig body, n => by simp [sig.term_renumber, body.term_renumber]
  | .paren _ x, n | .unary _ _ x, n | .selector _ x sel, n => by simp [x.parts_renumber]
  | .index _ x y, n | .binary _ _ x y, n | .keyValue _ x y, n => by simp [x.parts_renumber, y.parts_renumber]
  | .slice _ x lo hi max, n => by
    simp [x.parts_renumber, term_renumberExpr? lo, term_renumberExpr? hi, term_renumberExpr? max]
  | .typeAssert _ x ty, n => by simp [x.parts_renumber, ty.term_renumber]
  | .call _ fn args _, n => by simp [fn.parts_renumber, term_renumberExprs true args]
  | .type _ ty, n => by simp [ty.term_renumber]

theorem term_renumberExpr? : ∀ (x : Option Expr) (n : NodeId),
    (exprTerm? x).renumber n = (exprTerm? (renumberExpr? x n).1, (renumberExpr? x n).2)
  | none, n => by simp
  | some x, n => by simp [x.parts_renumber]

theorem term_renumberExprs (listed : Bool) : ∀ (xs : List Expr) (n : NodeId),
    renumberAll (exprTerms listed xs) n = (exprTerms listed (renumberExprs xs n).1, (renumberExprs xs n).2)
  | [], n => by simp
  | x :: xs, n => by simp [x.parts_renumber, term_renumberExprs listed xs]

theorem Block.term_renumber : ∀ (b : Block) (n : NodeId), b.term.renumber n = ((b.renumber n).1.term, (b.renumber n).2)
  | ⟨_, stmts⟩, n => by simp [term_renumberStmts stmts]

theorem Stmt.parts_renumber : ∀ (s : Stmt) (n : NodeId),
    renumberAll s.parts (n + 1) = ((s.renumber n).1.parts, (s.renumber n).2)
  | .expr _ x, n | .incDec _ x _, n | .go _ x, n | .defer _ x, n => by simp [x.parts_renumber]
  | .assign _ lhs _ rhs, n => by simp [term_renumberExprs false lhs, term_renumberExprs true rhs]
  | .decl _ d, n => by simp [d.term_renumber]
  | .ret _ results, n => by simp [term_renumberExprs true results]
  | .cond _ init test body other, n => by
    simp [term_renumberStmt? init, test.parts_renumber, body.term_renumber, term_renumberStmt? other]
  | .loop _ init test post body, n => by
    simp [term_renumberStmt? init, term_renumberExpr? test, term_renumberStmt? post, body.term_renumber]
  | .range _ key value _ x body, n => by
    simp [term_renumberExpr? key, term_renumberExpr? value, x.parts_renumber, body.term_renumber]
  | .switch _ init tag clauses, n => by
    simp [term_renumberStmt? init, term_renumberExpr? tag, term_renumberClauses clauses]
  | .block _ body, n => by simp [body.term_renumber]
  | .branch .., n => by simp

theorem term_renumberStmt? : ∀ (s : Option Stmt) (n : NodeId),
    (stmtTerm? s).renumber n = (stmtTerm? (renumberStmt? s n).1, (renumberStmt? s n).2)
  | none, n => by simp
  | some s, n => by simp [s.parts_renumber]

theorem term_renumberStmts : ∀ (ss : List Stmt) (n : NodeId),
    renumberIn (statements ss) n = (statements (renumberStmts ss n).1, (renumberStmts ss n).2)
  | [], n => by simp
  | s :: ss, n => by simp [s.parts_renumber, term_renumberStmts ss]

theorem term_renumberClauses : ∀ (cs : List CaseClause) (n : NodeId),
    renumberAll (clauseTerms cs) n = (clauseTerms (renumberClauses cs n).1, (renumberClauses cs n).2)
  | [], n => by simp
  | .case _ values body :: cs, n => by
    simp [term_renumberExprs false values, body.term_renumber, term_renumberClauses cs]
  | .default _ body :: cs, n => by simp [body.term_renumber, term_renumberClauses cs]

theorem Decl.term_renumber : ∀ (d : Decl) (n : NodeId), d.term.renumber n = ((d.renumber n).1.term, (d.renumber n).2)
  | .types specs, n => by simp [term_renumberTypeSpecs specs]
  | .vars specs, n | .consts specs, n => by simp [term_renumberValueSpecs specs]

theorem term_renumberTypeSpecs : ∀ (specs : List TypeSpec) (n : NodeId),
    renumberAll (typeSpecTerms specs) n = (typeSpecTerms (renumberTypeSpecs specs n).1, (renumberTypeSpecs specs n).2)
  | [], n => by simp
  | ⟨_, name, _, ty⟩ :: specs, n => by simp [ty.term_renumber, term_renumberTypeSpecs specs]

theorem term_renumberValueSpecs : ∀ (specs : List ValueSpec) (n : NodeId), renumberAll (valueSpecTerms specs) n =
    (valueSpecTerms (renumberValueSpecs specs n).1, (renumberValueSpecs specs n).2)
  | [], n => by simp
  | ⟨_, names, ty, values⟩ :: specs, n => by
    simp [term_renumberType? ty, term_renumberExprs true values, term_renumberValueSpecs specs]

end

theorem TypeExpr.renumber_draws (t : TypeExpr) : DrawsAll TypeExpr.count t.renumber := by
  intro n a n' h i
  have draws := t.term.renumber_draws (t.term_renumber n) i
  rwa [h, TypeExpr.count_term] at draws

theorem Block.renumber_draws (b : Block) : DrawsAll Block.count b.renumber := by
  intro n a n' h i
  have draws := b.term.renumber_draws (b.term_renumber n) i
  rwa [h, Block.count_term] at draws

end CheckHandle
