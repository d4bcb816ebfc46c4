import CheckHandle.Proofs.Settle

/-!
# Statements and where they stand

In a term in which no identity stands twice, a statement of a block is known by
its identity, and an expression by its own: it belongs to one statement, or to
none.
-/

namespace CheckHandle

open List

variable {b : Info × List Statement} {s : Statement}

variable {kind : Kind} {info : Info} {parts ts : List Term}

attribute [local simp] blocksIn blocksAll

/-- All statements in the blocks of these terms. -/
def standing (ts : List Term) : List Statement := (blocksAll ts).flatMap Prod.snd

/-- These statements, and all in their blocks. -/
def standingIn (ss : List Statement) : List Statement := ss ++ (blocksIn ss).flatMap Prod.snd

theorem standing_append (ts us : List Term) : standing (ts ++ us) = standing ts ++ standing us := by
  simp [standing, blocksAll_append]

theorem standingIn_append_subset (ss ts : List Statement) :
    standingIn ss ⊆ standingIn (ss ++ ts) ∧ standingIn ts ⊆ standingIn (ss ++ ts) := by
  simp only [standingIn, blocksIn_append, flatMap_append]
  constructor <;> (intro t ht; simp only [mem_append] at ht ⊢; grind)

theorem standing_cons (t : Term) (ts : List Term) : standing (t :: ts) = standing [t] ++ standing ts :=
  standing_append [t] ts

variable {u : NodeId} {ss : List Statement}

theorem standing_expr {listed : Bool} : standing [.expr listed kind info parts] = standing parts := by
  simp [standing, Term.blocks]

theorem standing_group {info : Option Info} : standing [.group kind info parts] = standing parts := by
  simp [standing, Term.blocks]

theorem standing_block : standing [.block info ss] = standingIn ss := by
  simp [standing, standingIn, Term.blocks]

theorem standingIn_cons : standingIn (.mk kind info parts :: ss)
    = .mk kind info parts :: (ss ++ (standing parts ++ (blocksIn ss).flatMap Prod.snd)) := by
  simp [standingIn, standing]

theorem mem_standingIn_cons :
    s ∈ standingIn (.mk kind info parts :: ss) ↔ s = .mk kind info parts ∨ s ∈ standing parts ∨ s ∈ standingIn ss := by
  rw [standingIn_cons, mem_cons, mem_append, mem_append, standingIn, mem_append]
  grind

theorem countIn_le_of_mem (h : s ∈ ss) : countIn u [s] ≤ countIn u ss := by
  obtain ⟨kind, info, parts⟩ := s
  induction ss with
  | nil => cases h
  | cons s' ss ih =>
    rcases mem_cons.mp h with rfl | hs
    · simp only [countIn]
      omega
    · obtain ⟨kind', info', parts'⟩ := s'
      have := ih hs
      simp only [countIn] at this ⊢
      omega

theorem countIn_le_of_standing (h : s ∈ standing ts) :
    countIn u [s] ≤ countAll u ts := by
  obtain ⟨b, hb, hs⟩ := mem_flatMap.mp h
  exact Nat.le_trans (countIn_le_of_mem hs) (countIn_le_countAll hb)

theorem countIn_le_of_standingIn (h : s ∈ standingIn ss) : countIn u [s] ≤ countIn u ss := by
  rcases mem_append.mp h with h | h
  · exact countIn_le_of_mem h
  · obtain ⟨b, hb, hs⟩ := mem_flatMap.mp h
    exact Nat.le_trans (countIn_le_of_mem hs) (countIn_le_countIn hb)

/-- How often an identity is that of one of these expressions. -/
def countNodes (i : NodeId) (nodes : List (Info × List Term)) : Nat := (nodes.map fun n => n.1.count i).sum

/-- How often an identity is that of one of these statements, or of one of
their expressions. -/
def countStanding (i : NodeId) (ss : List Statement) : Nat :=
  (ss.map fun s => s.info.count i + countNodes i (nodesAll s.parts)).sum

theorem countNodes_append (i : NodeId) (ns ms : List (Info × List Term)) :
    countNodes i (ns ++ ms) = countNodes i ns + countNodes i ms := by
  simp [countNodes]

theorem countStanding_append (i : NodeId) (ss ts : List Statement) :
    countStanding i (ss ++ ts) = countStanding i ss + countStanding i ts := by
  simp [countStanding]

mutual

theorem Term.countStanding_le (i : NodeId) :
    ∀ t : Term, countNodes i t.nodes + countStanding i (standing [t]) ≤ t.count i
  | .expr _ _ info parts => by
    have := countStanding_le_terms i parts
    simp only [Term.nodes, standing, blocksAll, Term.blocks, append_nil, countNodes_append, Term.count] at this ⊢
    simp only [countNodes, map_cons, map_nil, sum_cons, sum_nil] at this ⊢
    omega
  | .group _ info parts => by
    have := countStanding_le_terms i parts
    simp only [Term.nodes, standing, blocksAll, Term.blocks, append_nil, Term.count] at this ⊢
    omega
  | .fixed .. => by
    simp [Term.nodes, standing, Term.blocks, countNodes, countStanding]
  | .block info ss => by
    have := countStanding_le_statements i ss
    simp only [standingIn] at this
    simp only [Term.nodes, standing, blocksAll, Term.blocks, append_nil, flatMap_cons,
      countNodes, map_nil, sum_nil, Term.count]
    omega

theorem countStanding_le_terms (i : NodeId) : ∀ ts : List Term,
    countNodes i (nodesAll ts) + countStanding i (standing ts) ≤ countAll i ts
  | [] => by simp [nodesAll, standing, countNodes, countStanding]
  | t :: ts => by
    have h1 := Term.countStanding_le i t
    have h2 := countStanding_le_terms i ts
    rw [standing_cons, countStanding_append, nodesAll, countNodes_append, countAll]
    omega

theorem countStanding_le_statements (i : NodeId) : ∀ ss : List Statement,
    countStanding i (standingIn ss) ≤ countIn i ss
  | [] => by simp [standingIn, countStanding]
  | .mk kind info parts :: ss => by
    have h1 := countStanding_le_terms i parts
    have h2 := countStanding_le_statements i ss
    simp only [standingIn, blocksIn, standing, flatMap_append, countStanding_append, countIn] at h1 h2 ⊢
    simp only [countStanding, map_cons, sum_cons, Statement.info, Statement.parts]
      at h1 h2 ⊢
    omega

end

theorem le_sum_of_mem {α : Type} (f : α → Nat) {l : List α} {a : α} (h : a ∈ l) : f a ≤ (l.map f).sum := by
  induction l with
  | nil => cases h
  | cons x l ih =>
    rw [map_cons, sum_cons]
    rcases mem_cons.mp h with rfl | h
    · exact Nat.le_add_right _ _
    · exact Nat.le_trans (ih h) (Nat.le_add_left _ _)

/-- At most one element of a list weighs anything, if all of them together weigh
at most one. -/
theorem eq_of_sum_le_one {α : Type} (f : α → Nat) {l : List α} (h : (l.map f).sum ≤ 1) {a b : α}
    (ha : a ∈ l) (hb : b ∈ l) (hfa : 0 < f a) (hfb : 0 < f b) : a = b := by
  induction l with
  | nil => cases ha
  | cons x l ih =>
    rw [map_cons, sum_cons] at h
    rcases mem_cons.mp ha with rfl | ha' <;> rcases mem_cons.mp hb with rfl | hb'
    · rfl
    · have := le_sum_of_mem f hb'
      omega
    · have := le_sum_of_mem f ha'
      omega
    · exact ih (by omega) ha' hb'

/-- Of distinct terms, the expressions and the statements of blocks are known by
their identities. -/
structure Distinct (ts : List Term) : Prop where
  /-- A statement of a block has its identity for itself. -/
  statement : ∀ {s s'}, s ∈ standing ts → s' ∈ standing ts → s.info.id = s'.info.id → s = s'
  /-- An expression of a statement belongs to no other. -/
  owner : ∀ {s s' n n'}, s ∈ standing ts → s' ∈ standing ts → n ∈ nodesAll s.parts →
    n' ∈ nodesAll s'.parts → n.1.id = n'.1.id → s = s'
  node : ∀ {s n n'}, s ∈ standing ts → n ∈ nodesAll s.parts → n' ∈ nodesAll s.parts → n.1.id = n'.1.id → n = n'
  /-- An expression outside the blocks is in none of them. -/
  outside : ∀ {s n n'}, n ∈ nodesAll ts → s ∈ standing ts → n' ∈ nodesAll s.parts → n.1.id ≠ n'.1.id

theorem countNodes_pos {n : Info × List Term} {nodes : List (Info × List Term)} (h : n ∈ nodes) :
    0 < countNodes n.1.id nodes :=
  List.sum_pos_iff_exists_pos_nat.mpr ⟨_, mem_map_of_mem h, n.1.count_self_pos⟩

theorem distinct_of_count (h : ∀ i, countAll i ts ≤ 1) : Distinct ts := by
  have hall : ∀ i, countNodes i (nodesAll ts) + countStanding i (standing ts) ≤ 1 := fun i =>
    Nat.le_trans (countStanding_le_terms i ts) (h i)
  have hstanding : ∀ i, countStanding i (standing ts) ≤ 1 := fun i =>
    Nat.le_trans (Nat.le_add_left _ _) (hall i)
  have weight : ∀ {s n}, n ∈ nodesAll (Statement.parts s) →
      0 < s.info.count n.1.id + countNodes n.1.id (nodesAll s.parts) := fun hn =>
    Nat.add_pos_right _ (countNodes_pos hn)
  have le : ∀ {s i}, s ∈ standing ts → s.info.count i + countNodes i (nodesAll s.parts)
      ≤ countStanding i (standing ts) := fun {_ i} hs =>
    le_sum_of_mem (fun s => s.info.count i + countNodes i (nodesAll s.parts)) hs
  exact {
    statement := fun {s s'} hs hs' hid => by
      refine eq_of_sum_le_one _ (hstanding s.info.id) hs hs' ?_ ?_
      · exact Nat.add_pos_left s.info.count_self_pos _
      · rw [hid]
        exact Nat.add_pos_left s'.info.count_self_pos _
    owner := fun {s s' n n'} hs hs' hn hn' hid => by
      refine eq_of_sum_le_one _ (hstanding n.1.id) hs hs' (weight hn) ?_
      rw [hid]
      exact weight hn'
    node := fun {s n n'} hs hn hn' hid => by
      have h1 : countNodes n.1.id (nodesAll s.parts) ≤ 1 := by
        have := le (i := n.1.id) hs
        have := hstanding n.1.id
        omega
      refine eq_of_sum_le_one _ h1 hn hn' n.1.count_self_pos ?_
      rw [hid]
      exact n'.1.count_self_pos
    outside := fun {s n n'} hn hs hn' hid => by
      have h1 := countNodes_pos hn
      have h2 := le (i := n'.1.id) hs
      have h3 := weight hn'
      have h4 := hall n.1.id
      rw [hid] at h1 h4
      omega }

/-- How often an identity is that of one of these blocks. -/
def countBlocks (i : NodeId) (blocks : List (Info × List Statement)) : Nat := (blocks.map fun b => b.1.count i).sum

theorem countBlocks_append (i : NodeId) (bs cs : List (Info × List Statement)) :
    countBlocks i (bs ++ cs) = countBlocks i bs + countBlocks i cs := by
  simp [countBlocks]

mutual

theorem Term.countBlocks_le (i : NodeId) : ∀ t : Term, countBlocks i t.blocks ≤ t.count i
  | .expr _ _ info parts | .group _ info parts => by
    have := countBlocks_le_terms i parts
    simp only [Term.blocks, Term.count]
    omega
  | .fixed .. => Nat.zero_le _
  | .block info ss => by
    have := countBlocks_le_statements i ss
    simp only [Term.blocks, Term.count, countBlocks, map_cons, sum_cons] at this ⊢
    omega

theorem countBlocks_le_terms (i : NodeId) : ∀ ts : List Term, countBlocks i (blocksAll ts) ≤ countAll i ts
  | [] => Nat.zero_le _
  | t :: ts => by
    have := t.countBlocks_le i
    have := countBlocks_le_terms i ts
    simp only [blocksAll, countBlocks_append, countAll]
    omega

theorem countBlocks_le_statements (i : NodeId) : ∀ ss : List Statement,
    countBlocks i (blocksIn ss) ≤ countIn i ss
  | [] => Nat.zero_le _
  | .mk _ info parts :: ss => by
    have := countBlocks_le_terms i parts
    have := countBlocks_le_statements i ss
    simp only [blocksIn, countBlocks_append, countIn]
    omega

end

/-- A block has its identity for itself. -/
theorem Term.block_eq_of_id {t : Term} (h : ∀ i, t.count i ≤ 1) {b' : Info × List Statement} (hb : b ∈ t.blocks)
    (hb' : b' ∈ t.blocks) (hid : b'.1.id = b.1.id) : b' = b := by
  refine eq_of_sum_le_one _ (Nat.le_trans (t.countBlocks_le b.1.id) (h _)) hb' hb ?_ b.1.count_self_pos
  rw [← hid]
  exact b'.1.count_self_pos

/-! ## Terms of the syntax -/

section Every

variable (P Q : Kind → Info → List Term → Prop)

mutual

/-- All expressions in a term have the property `P`, and all statements of
blocks the property `Q`. -/
def Term.Every : Term → Prop
  | .expr _ kind info parts => P kind info parts ∧ EveryTerms parts
  | .group _ _ parts => EveryTerms parts
  | .fixed .. => True
  | .block _ ss => EveryIn ss

def EveryTerms : List Term → Prop
  | [] => True
  | t :: ts => t.Every ∧ EveryTerms ts

def EveryIn : List Statement → Prop
  | [] => True
  | .mk kind info parts :: ss => Q kind info parts ∧ EveryTerms parts ∧ EveryIn ss

end

variable {P Q}

theorem passesDown_every : PassesDown (Term.Every P Q) (EveryTerms P Q) (EveryIn P Q) := by
  constructor
  · constructor <;> intros <;> simp_all [Term.Every, EveryTerms]
  · intros
    simp_all [Term.Every]
  · intros
    simp_all [EveryIn]

theorem everyTerms_of_nodes {node : Info × List Term} (h : EveryTerms P Q ts) (hnode : node ∈ nodesAll ts) :
    ∃ kind, P kind node.1 node.2 := by
  obtain ⟨_, kind, every⟩ := passesDown_every.of_nodesAll h hnode
  rw [Term.Every] at every
  exact ⟨kind, every.1⟩

theorem everyIn_mem : ∀ {ss : List Statement}, EveryIn P Q ss → s ∈ ss → Q s.kind s.info s.parts
  | .mk kind info parts :: ss, h, hs => by
    rw [EveryIn] at h
    rcases mem_cons.mp hs with rfl | hs
    · exact h.1
    · exact everyIn_mem h.2.2 hs

theorem everyIn_parts : ∀ {ss : List Statement}, EveryIn P Q ss → s ∈ ss → EveryTerms P Q s.parts
  | .mk kind info parts :: ss, h, hs => by
    rw [EveryIn] at h
    rcases mem_cons.mp hs with rfl | hs
    · exact h.2.1
    · exact everyIn_parts h.2.2 hs

end Every

/-- These are the parts of an expression of the syntax. -/
def IsExpr (kind : Kind) (info : Info) (parts : List Term) : Prop :=
  ∃ x : Expr, x.kind = kind ∧ x.info = info ∧ x.parts = parts

/-- These are the parts of a statement of the syntax. -/
def IsStmt (kind : Kind) (info : Info) (parts : List Term) : Prop :=
  ∃ s : Stmt, s.kind = kind ∧ s.info = info ∧ s.parts = parts

theorem Expr.isExpr (x : Expr) : IsExpr x.kind x.info x.parts := ⟨x, rfl, rfl, rfl⟩

theorem Stmt.isStmt (s : Stmt) : IsStmt s.kind s.info s.parts := ⟨s, rfl, rfl, rfl⟩

section Written

attribute [local simp] Expr.isExpr Stmt.isStmt Term.Every EveryTerms EveryIn Term.absent Ident.term
  Signature.term Expr.parts exprTerm? exprTerms Block.term Stmt.parts stmtTerm? statements clauseTerms Decl.term
  valueSpecTerms blockTerm?

theorem TypeExpr.written (t : TypeExpr) : t.term.Every IsExpr IsStmt := by
  cases t <;> simp [TypeExpr.term]

theorem written_typeTerm? (t : Option TypeExpr) : (typeTerm? t).Every IsExpr IsStmt := by
  cases t <;> simp [typeTerm?, TypeExpr.written]

theorem Signature.written (sig : Signature) : sig.term.Every IsExpr IsStmt := by
  cases sig
  simp

theorem written_fieldTerm? : ∀ f : Option Field, (fieldTerm? f).Every IsExpr IsStmt
  | none => by simp [fieldTerm?]
  | some ⟨_, _, _, _, _⟩ => by simp [fieldTerm?, Field.term]

attribute [local simp] TypeExpr.written written_typeTerm? Signature.written written_fieldTerm?

mutual

theorem Expr.written : ∀ x : Expr, EveryTerms IsExpr IsStmt x.parts
  | .ident .. | .lit .. | .type .. => by simp
  | .composite _ ty elts => by simp [written_exprs false elts]
  | .funcLit _ sig body => by simp [body.written]
  | .paren _ x | .unary _ _ x | .selector _ x _ | .typeAssert _ x _ => by simp [x.written]
  | .index _ x y | .binary _ _ x y | .keyValue _ x y => by simp [x.written, y.written]
  | .slice _ x lo hi max => by simp [x.written, written_expr? lo, written_expr? hi, written_expr? max]
  | .call _ fn args _ => by simp [fn.written, written_exprs true args]

theorem written_expr? : ∀ x : Option Expr, (exprTerm? x).Every IsExpr IsStmt
  | none => by simp
  | some x => by simp [x.written]

theorem written_exprs (listed : Bool) : ∀ xs : List Expr, EveryTerms IsExpr IsStmt (exprTerms listed xs)
  | [] => by simp
  | x :: xs => by simp [x.written, written_exprs listed xs]

theorem Block.written : ∀ b : Block, b.term.Every IsExpr IsStmt
  | ⟨_, stmts⟩ => by simp [written_stmts stmts]

theorem Stmt.written : ∀ s : Stmt, EveryTerms IsExpr IsStmt s.parts
  | .expr _ x | .incDec _ x _ | .go _ x | .defer _ x => by simp [x.written]
  | .assign _ lhs _ rhs => by simp [written_exprs false lhs, written_exprs true rhs]
  | .decl _ d => by simp [d.written]
  | .ret _ results => by simp [written_exprs true results]
  | .cond _ init test body other => by
    simp [written_stmt? init, test.written, body.written, written_stmt? other]
  | .loop _ init test post body => by
    simp [written_stmt? init, written_expr? test, written_stmt? post, body.written]
  | .range _ key value _ x body => by
    simp [written_expr? key, written_expr? value, x.written, body.written]
  | .switch _ init tag clauses => by
    simp [written_stmt? init, written_expr? tag, written_clauses clauses]
  | .block _ body => by simp [body.written]
  | .branch .. => by simp

theorem written_stmt? : ∀ s : Option Stmt, (stmtTerm? s).Every IsExpr IsStmt
  | none => by simp
  | some s => by simp [s.written]

theorem written_stmts : ∀ ss : List Stmt, EveryIn IsExpr IsStmt (statements ss)
  | [] => by simp
  | s :: ss => by simp [s.written, written_stmts ss]

theorem written_clauses : ∀ cs : List CaseClause, EveryTerms IsExpr IsStmt (clauseTerms cs)
  | [] => by simp
  | .case _ values body :: cs => by simp [written_exprs false values, body.written, written_clauses cs]
  | .default _ body :: cs => by simp [body.written, written_clauses cs]

theorem Decl.written : ∀ d : Decl, d.term.Every IsExpr IsStmt
  | .types specs => by simp
  | .vars specs | .consts specs => by simp [written_valueSpecs specs]

theorem written_valueSpecs : ∀ specs : List ValueSpec, EveryTerms IsExpr IsStmt (valueSpecTerms specs)
  | [] => by simp
  | ⟨_, names, ty, values⟩ :: specs => by simp [written_exprs true values, written_valueSpecs specs]

end

theorem TopDecl.written : ∀ d : TopDecl, d.term.Every IsExpr IsStmt
  | .func ⟨_, recv, name, sig, none⟩ => by simp [TopDecl.term, FuncDecl.term]
  | .func ⟨_, recv, name, sig, some body⟩ => by simp [TopDecl.term, FuncDecl.term, body.written]
  | .decl d => d.written

/-- A file is written in the syntax. -/
theorem File.written (f : File) : f.term.Every IsExpr IsStmt := by
  have hdecls : EveryTerms IsExpr IsStmt (f.decls.map TopDecl.term) := by
    induction f.decls with
    | nil => simp
    | cons d ds ih => simp [d.written, ih]
  simp [File.term, hdecls]

end Written

theorem File.exists_stmt (f : File) (hb : b ∈ f.term.blocks) (hs : s ∈ b.2) : ∃ x : Stmt, s = x.statement := by
  obtain ⟨x, hkind, hinfo, hparts⟩ := everyIn_mem (passesDown_every.of_blocks f.written hb) hs
  obtain ⟨kind, info, parts⟩ := s
  cases hkind
  cases hinfo
  cases hparts
  exact ⟨x, rfl⟩

end CheckHandle
