import CheckHandle.Proofs.Arranged
import CheckHandle.Proofs.Grouping
import CheckHandle.Proofs.Nesting

/-!
# What is built from a match

The builder is followed once, over the trees that the grammar can produce. Every
part it asks for is there, so the only faults it reports are those of the user.
What it builds is laid out as the trees are: its nodes lie in the text, its
statements in the order of the text, and its names are those of the identifiers
that were matched. Every node has an identity of its own, from the counter on, so
no identity stands in two files of one package.
-/

namespace CheckHandle

open Text List

open Build (Assembles AssemblesFrom Ensures Yields)

attribute [local grind =] TypeExpr.count Field.count Signature.count Expr.count Stmt.count Block.count Decl.count
  Ident.count countIdents countFields countType? countExpr? countExprs countStmt? countStmts countClauses countTypeSpecs
  countValueSpecs countIdent? RawParam.count countRawParams countOperations countWaiting SliceBounds.count
  ForParts.count RangeParts.count

variable {rs : List Rule} {p : FileParts}

variable {info : Info} {ops : List (UnaryOp × Nat)} {xs : List Expr} {rounds : List (List Rule)} {span : Span}
    {init : Option Stmt} {rule : Rule}

/-! ## Pieces -/

section Pieces

variable {P : Name → Prop} {size lo mid hi : Nat} {list : Span} {x y : Expr} {raw : List RawParam}
  {base : NodeId → Nat}

/-- An expression that spells no name itself. -/
theorem assembles_expr {make : Info → Expr} (hspan : span.Between lo hi)
    (plain : ∀ i, (make i).info = i ∧ (∀ s, (make i).kind.spelled s = []) ∧ (make i).Aligned)
    (old : ∀ info i, (make info).count i ≤ base i + info.count i) (parts : ∀ i, TermsLaid P lo hi (make i).parts) :
    AssemblesFrom size base Expr.count (Expr.Laid P lo hi) (Build.info span >>= fun i => pure (make i)) := by
  refine .node old fun i hi => ⟨?_, ?_, parts i, (plain i).2.2⟩
  · rw [(plain i).1, hi]
    exact hspan
  · rw [(plain i).2.1]
    exact known_nil

theorem TypeExpr.laid {ty : TypeExpr} (known : Known P ty.spelled) (le : lo ≤ hi) : ty.term.Laid P lo hi := by
  cases ty <;> exact .fixed le known

theorem Signature.laid {sig : Signature} (known : Known P sig.spelled) (le : lo ≤ hi) : sig.term.Laid P lo hi := by
  cases sig
  exact .fixed le known

/-! ### Operators -/

theorem Expr.Laid.binary (hx : x.Laid P lo mid) (hy : y.Laid P mid hi)
    (hinfo : info.span = ⟨x.info.span.start, y.info.span.stop⟩) (op : BinaryOp) :
    (Expr.binary info op x y).Laid P lo hi := by
  refine ⟨?_, known_nil, .cons (hx.term false) (.cons (hy.term false) (.nil .refl)), trivial⟩
  change info.span.Between lo hi
  rw [hinfo]
  exact hx.span.join hy.span

theorem InRow.split {α : Type} {Q : Nat → Nat → α → Prop} {as bs : List α} (h : InRow Q lo hi (as ++ bs)) :
    ∃ mid, InRow Q lo mid as ∧ InRow Q mid hi bs := by
  induction as generalizing lo with
  | nil => exact ⟨lo, .nil .refl, h⟩
  | cons a as ih =>
    cases h with
    | cons ha h =>
      obtain ⟨mid, has, hbs⟩ := ih h
      exact ⟨mid, .cons ha has, hbs⟩

theorem Grouping.Builds.laid {g : Grouping} (h : g.Builds y) (hfirst : g.first.Laid P lo mid)
    (hrest : InRow (fun lo hi p => p.2.Laid P lo hi) mid hi g.rest) : y.Laid P lo hi := by
  induction g generalizing y lo mid hi with
  | operand x =>
    cases h
    cases hrest with
    | nil le => exact hfirst.mono .refl le
  | node op left right ihl ihr =>
    obtain ⟨id, a, b, rfl, ha, hb⟩ := h
    obtain ⟨mid', hl, hr⟩ := hrest.split
    cases hr with
    | cons hx hr => exact (ihl ha hfirst hl).binary (ihr hb hx hr) rfl op

theorem foldBinary_laid {rest : List (BinaryOp × Expr)} (hx : x.Laid P lo mid)
    (hrest : InRow (fun lo hi p => p.2.Laid P lo hi) mid hi rest) (n : NodeId) :
      (foldBinary [] x rest n).1.Laid P lo hi := by
  obtain ⟨g, builds, -, rfl, rfl⟩ := foldBinary_builds x rest n
  exact builds.laid hx hrest

theorem applyUnary_laid (hops : ∀ p ∈ ops, lo ≤ p.2 ∧ p.2 ≤ mid) (hlo : lo ≤ mid) (hx : x.Laid P mid hi) (n : NodeId) :
    (applyUnary x ops n).1.Laid P lo hi ∧ mid ≤ (applyUnary x ops n).1.info.span.stop := by
  induction ops generalizing n with
  | nil => exact ⟨hx.mono hlo .refl, hx.span.lower.trans hx.span.ordered⟩
  | cons p ops ih =>
    obtain ⟨op, start⟩ := p
    obtain ⟨⟨hlower, hupper⟩, hops⟩ := forall_mem_cons.mp hops
    obtain ⟨hy, hstop⟩ := ih hops n
    -- The operator starts before the operand ends.
    refine ⟨⟨⟨hlower, hupper.trans hstop, hy.span.upper⟩, known_nil, ?_, trivial⟩, hstop⟩
    exact .cons (hy.term false) (.nil .refl)

/-! ### Parameters -/

def RawParam.spelled (p : RawParam) : List Name := spelled? Ident.spelled p.name ++ p.ty.spelled

theorem Field.spelled_eq (info : Info) (names : List Ident) (ty : TypeExpr) (variadic : Bool) (tag : Option String) :
    (Field.mk info names ty variadic tag).spelled = names.flatMap Ident.spelled ++ ty.spelled := by
  simp [Field.spelled, Field.term, Term.spelled, spelledAll, Kind.spelled]

theorem Signature.spelled_eq (params results : List Field) : (Signature.mk params results).spelled =
    params.flatMap Field.spelled ++ results.flatMap Field.spelled := by
  simp [Signature.spelled, Signature.term, Term.spelled, spelledAll, Kind.spelled]

theorem reported {message : String} (hspan : span.Between 0 size) (mem : message ∈ Build.complaints) :
    Fault.Reported size ⟨.unparsable message, span, false⟩ :=
  ⟨hspan, .inr ⟨message, mem, rfl⟩, rfl⟩

theorem groupParams_assembles {pending : List Ident} (hlist : list.Between 0 size)
    (hpending : Known P (pending.flatMap Ident.spelled))
    (hraw : ∀ p ∈ raw, Known P p.spelled ∧ p.span.Between 0 size) :
    AssemblesFrom size (fun i => countIdents i pending + countRawParams i raw) countFields
      (fun fs => Known P (fs.flatMap Field.spelled)) (groupParams list pending raw) := by
  induction raw generalizing pending with
  | nil =>
    rw [groupParams]
    split
    · exact .pure known_nil fun i => Nat.zero_le _
    · exact .fail (reported hlist (by decide))
  | cons p ps ih =>
    obtain ⟨⟨hp, hspan⟩, hps⟩ := forall_mem_cons.mp hraw
    rw [RawParam.spelled, known_append] at hp
    obtain ⟨hname, hty⟩ := hp
    rw [groupParams]
    split
    · rename_i name hp
      rw [hp, spelled?_some] at hname
      refine .bind .info fun info _ =>
        .bindFrom (fun i => info.count i + countIdents i (name :: pending) + p.ty.count i)
        (ih known_nil hps) (fun fs hfs => .pure ?_ fun i => ?_) fun i => ?_
      · rw [flatMap_cons, known_append, Field.spelled_eq, known_append, known_flatMap]
        refine ⟨⟨fun x hx => ?_, hty⟩, hfs⟩
        rcases mem_cons.mp (mem_reverse.mp hx) with rfl | hx
        · exact hname
        · exact known_flatMap.mp hpending x hx
      · simp only [countFields, Field.count, countIdents_reverse]
        omega
      · simp only [countIdents, countRawParams, RawParam.count, hp, countIdent?]
        omega
    · split
      · rename_i tyInfo name hp _
        rw [hp] at hty
        exact (ih (by rw [flatMap_cons, known_append]; exact ⟨hty, hpending⟩) hps).mono (fun i => by grind) fun _ => id
      · exact .fail (reported hspan (by decide))

theorem fieldsOfParams_assembles (hlist : list.Between 0 size)
    (hraw : ∀ p ∈ raw, Known P p.spelled ∧ p.span.Between 0 size) :
    AssemblesFrom size (fun i => countRawParams i raw) countFields (fun fs => Known P (fs.flatMap Field.spelled))
      (fieldsOfParams list raw) := by
  unfold fieldsOfParams
  split
  · rename_i unnamed
    clear hlist unnamed
    induction raw with
    | nil => exact .pure known_nil fun i => .refl
    | cons p ps ih =>
      obtain ⟨⟨hp, -⟩, hps⟩ := forall_mem_cons.mp hraw
      rw [RawParam.spelled, known_append] at hp
      rw [mapM_cons]
      have field : AssemblesFrom size (fun i => p.ty.count i) Field.count (fun f => Known P f.spelled)
          (do return ⟨← Build.info p.span, [], p.ty, p.variadic, none⟩) := by
        refine .node (fun _ i => by grind) fun i _ => ?_
        rw [Field.spelled_eq]
        exact hp.2
      exact .bindFrom (fun i => countRawParams i ps) field (fun f hf => .bindFrom (fun i => f.count i) (ih hps)
        (fun fs hfs => .pure ((known_append ..).mpr ⟨hf, hfs⟩) fun i => by grind) fun i => .refl) fun i => by grind
  · exact (groupParams_assembles hlist known_nil hraw).mono (fun i => by grind) fun _ => id

/-- A literal body turns the operand in front of it into a type with the same
names. -/
theorem literalTypeOf_assembles (forget : ∀ x o, P (x, some o) → P (x, none)) (hx : x.Laid P lo hi)
    (upper : hi ≤ size) :
    AssemblesFrom size (fun i => x.count i) TypeExpr.count (fun ty => Known P ty.spelled) (literalTypeOf x) := by
  have known := hx.parts.known
  unfold literalTypeOf
  split
  · rename_i here name
    refine .node (fun _ i => by grind) fun i hi => ?_
    have own : Known P [(name, some here.span.start)] := hx.own
    simpa [TypeExpr.spelled, TypeExpr.term, Term.spelled, Kind.spelled, infoStart?, hi, spelledAll] using own
  · rename_i here i package sel
    refine .node (fun _ i => by grind) fun j hj => ?_
    have aligned : here.span.start = i.span.start := hx.aligned
    have names : P (package, some i.span.start) ∧ P (sel.name, some sel.info.span.start) := by
      simpa [Expr.parts, spelledAll, Expr.kind, Kind.spelled, Ident.spelled, Expr.spelled, Expr.term,
        Term.spelled, Expr.info] using known
    simpa [TypeExpr.spelled, TypeExpr.term, Term.spelled, Kind.spelled, infoStart?, hj, aligned, spelledAll]
      using ⟨names.1, forget _ _ names.2⟩
  · exact .pure (by simpa [Expr.parts, spelledAll] using known) fun i => by grind
  · exact .fail (reported (hx.span.mono (Nat.zero_le _) upper) (by decide))

end Pieces

/-! ## One level of a tree -/

namespace Rule

def isType : Rule → Bool
  | .typeExpr | .typeOnly | .typeOperand | .typeName | .pointerType | .sliceType | .arrayType | .mapType
  | .funcType | .structType | .interfaceType => true
  | _ => false

def isExpr : Rule → Bool
  | .expr | .headerExpr | .unaryExpr | .headerUnaryExpr | .primaryExpr | .headerPrimaryExpr | .ident
  | .parenExpr | .compositeLit | .funcLit | .typeOperand | .litBody | .intLit | .floatLit | .imagLit
  | .runeLit | .stringLit => true
  | _ => false

def isSuffix : Rule → Bool
  | .selectorSuffix | .typeAssertSuffix | .indexSuffix | .sliceSuffix | .callSuffix | .litSuffix => true
  | _ => false

def isStmt : Rule → Bool
  | .returnStmt | .ifStmt | .forStmt | .switchStmt | .goStmt | .deferStmt | .branchStmt | .declStmt | .block
  | .assignStmt | .headerAssignStmt | .incdecStmt | .headerIncdecStmt | .exprStmt | .headerExprStmt => true
  | _ => false

def isDecl : Rule → Bool
  | .typeDecl | .varDecl | .constDecl => true
  | _ => false

end Rule

/-- What is built from a tree of such a rule, between the offsets of the tree. -/
abbrev BuiltFrom (P : Name → Prop) (size k : Nat) {α : Type} (ok : Rule → Bool) (c : NodeId → α → Nat)
    (Q : Nat → Nat → α → Prop) (build : Tree → Build α) : Prop :=
  ∀ {t lo hi}, t.Stands P size k lo hi → ok t.rule = true → Assembles size c (Q lo hi) (build t)

/-- What is built from trees smaller than `k`, where the grammar has them. -/
structure Assembly (P : Name → Prop) (size k : Nat) : Prop where
  forget : ∀ x o, P (x, some o) → P (x, none)
  type : BuiltFrom P size k Rule.isType TypeExpr.count (fun _ _ ty => Known P ty.spelled) buildType
  field : BuiltFrom P size k (· == .fieldDecl) Field.count (fun _ _ f => Known P f.spelled) buildField
  member : BuiltFrom P size k (· == .ifaceElem) Field.count (fun _ _ f => Known P f.spelled) buildMember
  params : BuiltFrom P size k (· == .params) countFields (fun _ _ fs => Known P (fs.flatMap Field.spelled)) buildParams
  rawParam : BuiltFrom P size k (· == .param) RawParam.count
    (fun _ _ p => Known P p.spelled ∧ p.span.Between 0 size) buildRawParam
  signature : BuiltFrom P size k (· == .signature) Signature.count (fun _ _ s => Known P s.spelled) buildSignature
  exprList : BuiltFrom P size k (fun r => r == .exprList || r == .headerExprList) countExprs (InRow (Expr.Laid P))
    buildExprList
  expr : BuiltFrom P size k Rule.isExpr Expr.count (Expr.Laid P) buildExpr
  suffix : ∀ {t lo mid hi x}, x.Laid P lo mid → t.Stands P size k mid hi → t.rule.isSuffix = true →
    AssemblesFrom size (fun i => x.count i) Expr.count (Expr.Laid P lo hi) (buildSuffix x t)
  litBody : BuiltFrom P size k (· == .litBody) countExprs (InRow (Expr.Laid P)) buildLitBody
  element : BuiltFrom P size k (· == .element) Expr.count (Expr.Laid P) buildElement
  block : BuiltFrom P size k (fun r => r == .block || r == .caseBody) Block.count
    (fun lo hi b => b.term.Laid P lo hi) buildBlock
  stmt : BuiltFrom P size k Rule.isStmt Stmt.count (Stmt.Laid P) buildStmt
  clause : BuiltFrom P size k (· == .caseClause) (fun i c => countClauses i [c])
    (fun lo hi c => TermsLaid P lo hi (clauseTerms [c])) buildClause
  decl : BuiltFrom P size k Rule.isDecl Decl.count (fun lo hi d => d.term.Laid P lo hi) buildDecl
  typeSpec : BuiltFrom P size k (· == .typeSpec) (fun i s => countTypeSpecs i [s])
    (fun _ _ s => Known P s.spelled) buildTypeSpec
  valueSpec : BuiltFrom P size k (fun r => r == .varSpec || r == .constSpec) (fun i s => countValueSpecs i [s])
    (fun lo hi s => TermsLaid P lo hi (valueSpecTerms [s])) buildValueSpec

section Level

variable {P : Name → Prop} {size k lo mid hi start : Nat} {text : List Char}
  {children ts : List Tree} {x : Expr}

theorem Tree.Stands.ident (h : (Tree.node .ident start text children).Stands P size k lo hi) :
    P (String.ofList (trim text), some start) ∧ P (String.ofList text, some start) := by
  have bears := h.bears
  rw [Tree.Bears] at bears
  exact bears.1 rfl

theorem buildIdent_assembles (h : (Tree.node .ident start text children).Stands P size k lo hi) :
    Assembles size Ident.count (fun x => Known P x.spelled) (buildIdent (.node .ident start text ts)) := by
  refine .node (fun _ i => by grind) fun i hi => ?_
  simpa [Ident.spelled, Tree.word, Tree.text, hi, Tree.span, Tree.start] using h.ident.1

theorem buildIdents_assembles (h : (Tree.node .identList start text children).Stands P size (k + 1) lo hi) :
    Assembles size countIdents (fun xs => Known P (xs.flatMap Ident.spelled)) (children.mapM buildIdent) := by
  obtain ⟨rs, all, row⟩ := h.each (· == .ident) rfl (by decide)
  refine (assembles_each (f := (·.mapM buildIdent)) rfl (fun _ _ => mapM_cons) (fun _ => rfl) (fun _ _ _ => rfl) row
    fun {_ _ t} hr ht => ?_).imp fun _ hxs => known_flatMap.mpr hxs.forall
  have ident := all _ hr
  obtain ⟨_, _, _, _⟩ := t
  obtain rfl := eq_of_beq ident
  exact buildIdent_assembles ht

theorem TypeExpr.known_of_parts {t : TypeExpr} {kind : Kind} {parts : List Term}
    (own : t.term = .fixed kind (some info) parts) (name : kind.spelled (some info.span.start) = [])
    (known : Known P (spelledAll parts)) : Known P t.spelled := by
  rw [TypeExpr.spelled, own, Term.spelled]
  simpa [infoStart?, name] using known

variable (ih : Assembly P size k) (h : (Tree.node rule start text children).Stands P size (k + 1) lo hi)

include ih in
theorem typeName_assembles (h : (Tree.node .typeName start text children).Stands P size (k + 1) lo hi) :
    Assembles size TypeExpr.count (fun ty => Known P ty.spelled) (buildType (.node .typeName start text children)) := by
  have first : ∀ t ∈ children.head?, t.start = start := by
    have bears := h.bears
    rw [Tree.Bears] at bears
    exact bears.2.1 rfl
  obtain row | row := h.rows [[.ident], [.ident, .ident]] rfl
  · obtain _ | ⟨t1, _ | _⟩ := row
    obtain rfl := first _ rfl
    refine .node (fun _ i => by grind) fun i hi => ?_
    simpa [TypeExpr.spelled, TypeExpr.term, Term.spelled, Kind.spelled, infoStart?, hi, spelledAll,
      matchSpan, Tree.start, Tree.string, Tree.text] using t1.ident.2
  · obtain _ | ⟨t1, _ | ⟨t2, _ | _⟩⟩ := row
    obtain rfl := first _ rfl
    refine .node (fun _ i => by grind) fun i hi => ?_
    simpa [TypeExpr.spelled, TypeExpr.term, Term.spelled, Kind.spelled, infoStart?, hi, spelledAll,
      matchSpan, Tree.start, Tree.string, Tree.text] using ⟨t1.ident.2, ih.forget _ _ t2.ident.2⟩

include ih h in
theorem buildType_assembles (type : rule.isType = true) :
    Assembles size TypeExpr.count (fun ty => Known P ty.spelled) (buildType (.node rule start text children)) := by
  revert type
  cases rule <;> intro type <;> first | exact absurd type Bool.false_ne_true | skip
  case typeOnly | typeExpr | typeOperand =>
    obtain ⟨t, rfl, ok, ht⟩ := h.only Rule.isType rfl rfl
    change Assembles size _ _ (buildType t)
    exact ih.type ht ok
  case typeName => exact typeName_assembles ih h
  case pointerType | sliceType =>
    obtain ⟨t, rfl, ok, ht⟩ := h.only Rule.isType rfl rfl
    refine .bind (ih.type ht ok) fun ty hty => .node (fun _ i => by grind) fun _ _ => ?_
    exact TypeExpr.known_of_parts rfl rfl (by simpa [spelledAll] using hty)
  case arrayType =>
    obtain row | row := h.rows [[.ellipsis, .typeExpr], [.expr, .typeExpr]] rfl
    · obtain _ | ⟨_, _ | ⟨t2, _ | _⟩⟩ := row
      refine .bind (ih.type t2 rfl) fun ty hty => .node (fun _ i => by grind) fun _ _ => ?_
      exact TypeExpr.known_of_parts rfl rfl (by simpa [spelledAll] using hty)
    · obtain _ | ⟨t1, _ | ⟨t2, _ | _⟩⟩ := row
      refine .bind (ih.expr t1 rfl) fun x hx => .bind (ih.type t2 rfl) fun ty hty =>
        .node (fun _ i => by grind) fun _ _ => ?_
      exact TypeExpr.known_of_parts rfl rfl (by simpa [spelledAll] using ⟨(hx.term false).known, hty⟩)
  case mapType =>
    obtain _ | ⟨t1, _ | ⟨t2, _ | _⟩⟩ := (h.row [.typeExpr, .typeExpr] rfl)
    refine .bind (ih.type t1 rfl) fun key hkey => .bind (ih.type t2 rfl) fun value hvalue =>
      .node (fun _ i => by grind) fun _ _ => ?_
    exact TypeExpr.known_of_parts rfl rfl (by simpa [spelledAll] using ⟨hkey, hvalue⟩)
  case funcType =>
    obtain ⟨t, rfl, ok, ht⟩ := h.only (· == .signature) rfl rfl
    refine .bind (ih.signature ht ok) fun sig hsig => .node (fun _ i => by grind) fun _ _ => ?_
    exact TypeExpr.known_of_parts rfl rfl (by simpa [spelledAll] using hsig)
  case structType =>
    obtain ⟨rs, all, row⟩ := h.each (· == .fieldDecl) rfl (by decide)
    refine .bind (assembles_each (d := countFields) rfl (fun _ _ => rfl) (fun _ => rfl) (fun _ _ _ => rfl) row
      fun hr ht => ih.field ht (all _ hr)) fun fs hfs => .node (fun _ i => by grind) fun _ _ => ?_
    exact TypeExpr.known_of_parts rfl rfl (by simpa using known_flatMap.mpr hfs.forall)
  case interfaceType =>
    obtain ⟨rs, all, row⟩ := h.each (· == .ifaceElem) rfl (by decide)
    refine .bind (assembles_each (d := countFields) rfl (fun _ _ => rfl) (fun _ => rfl) (fun _ _ _ => rfl) row
      fun hr ht => ih.member ht (all _ hr)) fun fs hfs => .node (fun _ i => by grind) fun _ _ => ?_
    exact TypeExpr.known_of_parts rfl rfl (by simpa using known_flatMap.mpr hfs.forall)

include ih in
theorem buildField_assembles (h : (Tree.node .fieldDecl start text children).Stands P size (k + 1) lo hi) :
    Assembles size Field.count (fun f => Known P f.spelled) (buildField (.node .fieldDecl start text children)) := by
  obtain row | row | row | row := h.rows [[.identList, .typeExpr], [.identList, .typeExpr, .stringLit],
    [.embeddedField], [.embeddedField, .stringLit]] rfl
  iterate 2
    · obtain _ | ⟨t1, _ | ⟨t2, tag⟩⟩ := row
      refine .bind (buildIdents_assembles t1.weaken) fun names hnames => .bind (ih.type t2 rfl) fun ty hty => ?_
      rcases tag with _ | ⟨_, _ | _⟩
      refine .node (fun _ i => by grind) fun _ _ => ?_
      rw [Field.spelled_eq, known_append]
      exact ⟨hnames, hty⟩
  all_goals
    cases row with
    | @cons _ _ _ _ _ _ _ _ tag t1 row =>
      obtain ⟨t, rfl, ok, ht⟩ := t1.wrapped Rule.isType rfl rfl
      have field {ty : TypeExpr} (hty : Known P ty.spelled) :
          AssemblesFrom size (fun i => ty.count i) Field.count (fun f => Known P f.spelled)
            (buildFieldFrom (matchSpan start text) [] (some ty) none tag) := by
        rcases row with _ | ⟨_, _ | _⟩
        refine .node (fun _ i => by grind) fun _ _ => ?_
        rwa [Field.spelled_eq]
      refine .bind (ih.type ht ok) fun ty hty => ?_
      split
      · refine .bind .info fun i _ => (@field (.pointer i ty) ?_).mono (fun i => by grind) fun _ => id
        exact TypeExpr.known_of_parts rfl rfl (by simpa [spelledAll] using hty)
      · exact (field hty).mono (fun i => by grind) fun _ => id

include ih in
theorem buildMember_assembles (h : (Tree.node .ifaceElem start text children).Stands P size (k + 1) lo hi) :
    Assembles size Field.count (fun f => Known P f.spelled) (buildMember (.node .ifaceElem start text children)) := by
  obtain row | row := h.rows [[.methodSpec], [.typeName]] rfl
  · obtain _ | ⟨t1, _ | _⟩ := row
    obtain _ | ⟨t2, _ | ⟨t3, _ | _⟩⟩ := (t1.weaken.row [.ident, .signature] rfl)
    refine .bind (buildIdent_assembles t2) fun name hname => .bind (ih.signature t3 rfl) fun sig hsig =>
      .bind .info fun i _ => .node (fun _ i => by grind) fun _ _ => ?_
    have hty : Known P (TypeExpr.func i sig).spelled :=
      TypeExpr.known_of_parts rfl rfl (by simpa [spelledAll] using hsig)
    rw [Field.spelled_eq, known_append]
    exact ⟨by simpa using hname, hty⟩
  · obtain _ | ⟨t1, _ | _⟩ := row
    refine .bind (ih.type t1 rfl) fun ty hty => .node (fun _ i => by grind) fun _ _ => ?_
    rw [Field.spelled_eq]
    exact hty

include ih in
theorem buildRawParams_assembles (h : (Tree.node .params start text children).Stands P size (k + 1) lo hi) :
    Assembles size countRawParams (fun ps => ∀ p ∈ ps, Known P p.spelled ∧ p.span.Between 0 size)
      (buildRawParams children) := by
  obtain ⟨rs, all, row⟩ := h.each (· == .param) rfl (by decide)
  exact (assembles_each (g := buildRawParam) rfl (fun _ _ => rfl) (fun _ => rfl) (fun _ _ _ => rfl) row fun hr ht =>
    ih.rawParam ht (all _ hr)).imp fun _ hps => hps.forall

include ih in
theorem buildRawParam_assembles (h : (Tree.node .param start text children).Stands P size (k + 1) lo hi) :
    Assembles size RawParam.count (fun p => Known P p.spelled ∧ p.span.Between 0 size)
      (buildRawParam (.node .param start text children)) := by
  obtain row | row | row | row := h.rows
    [[.ident, .typeExpr], [.ident, .ellipsis, .typeExpr], [.typeExpr], [.ellipsis, .typeExpr]] rfl
  · obtain _ | ⟨t1, _ | ⟨t2, _ | _⟩⟩ := row
    exact .bind (buildIdent_assembles t1) fun name hname => .bind (ih.type t2 rfl) fun ty hty =>
      .pure ⟨(known_append ..).mpr ⟨hname, hty⟩, h.between⟩ fun i => by grind
  · obtain _ | ⟨t1, _ | ⟨_, _ | ⟨t2, _ | _⟩⟩⟩ := row
    exact .bind (buildIdent_assembles t1) fun name hname => .bind (ih.type t2 rfl) fun ty hty =>
      .pure ⟨(known_append ..).mpr ⟨hname, hty⟩, h.between⟩ fun i => by grind
  · obtain _ | ⟨t1, _ | _⟩ := row
    exact .bind (ih.type t1 rfl) fun ty hty => .pure ⟨hty, h.between⟩ fun i => by grind
  · obtain _ | ⟨_, _ | ⟨t2, _ | _⟩⟩ := row
    exact .bind (ih.type t2 rfl) fun ty hty => .pure ⟨hty, h.between⟩ fun i => by grind

include ih in
theorem buildSignature_assembles (h : (Tree.node .signature start text children).Stands P size (k + 1) lo hi) :
    Assembles size Signature.count (fun s => Known P s.spelled)
      (buildSignature (.node .signature start text children)) := by
  have both {params results : List Field} (hparams : Known P (params.flatMap Field.spelled))
      (hresults : Known P (results.flatMap Field.spelled)) : Known P (Signature.mk params results).spelled := by
    rw [Signature.spelled_eq, known_append]
    exact ⟨hparams, hresults⟩
  obtain row | row := h.rows [[.params], [.params, .results]] rfl
  · obtain _ | ⟨t1, _ | _⟩ := row
    exact .bind (ih.params t1 rfl) fun _ hparams => .pure (both hparams known_nil) fun i => by grind
  · obtain _ | ⟨t1, _ | ⟨t2, _ | _⟩⟩ := row
    obtain row | row := t2.weaken.rows [[.params], [.typeExpr]] rfl
    · obtain _ | ⟨t, _ | _⟩ := row
      refine .bind (ih.params t1 rfl) fun params hparams => .bind (buildRawParams_assembles ih t.weaken)
        fun raw hraw => .bindFrom (fun i => countFields i params) (fieldsOfParams_assembles t.weaken.between hraw)
        (fun _ hresults => .pure (both hparams hresults) fun i => by grind) fun i => by grind
    · obtain _ | ⟨t, _ | _⟩ := row
      refine .bind (ih.params t1 rfl) fun _ hparams => .bind (ih.type t rfl) fun ty hty =>
        .node (fun _ i => by grind) fun _ _ => both hparams ?_
      simpa [Field.spelled_eq] using hty

/-! ### Expressions -/

/-- An operator is known by its text. -/
theorem Tree.Stands.literal (h : (Tree.node rule start text children).Stands P size k lo hi)
    {texts : List (List Char)} (literals : rule.body.literals = some texts) : text ∈ texts := by
  have bears := h.bears
  rw [Tree.Bears] at bears
  exact bears.2.2.1 texts literals

theorem InRow.mono {lo' : Nat} (h : InRow (Expr.Laid P) lo hi xs) (hlo : lo' ≤ lo) :
    InRow (Expr.Laid P) lo' hi xs := by
  cases h with
  | nil le => exact .nil (hlo.trans le)
  | cons hx rest => exact .cons (hx.mono hlo .refl) rest

include ih in
theorem buildExprs_assembles (row : Row (Tree.Stands P size k) lo hi rs ts) (all : ∀ r ∈ rs, r.isExpr = true) :
    Assembles size countExprs (InRow (Expr.Laid P) lo hi) (buildExprs ts) :=
  assembles_each rfl (fun _ _ => rfl) (fun _ => rfl) (fun _ _ _ => rfl) row fun hr ht => ih.expr ht (all _ hr)

include ih h in
theorem buildExprList_assembles (list : (rule == .exprList || rule == .headerExprList) = true) :
    Assembles size countExprs (InRow (Expr.Laid P) lo hi) (buildExprList (.node rule start text children)) := by
  have row : ∃ rs, (∀ r ∈ rs, r.isExpr = true) ∧ Row (Tree.Stands P size k) start hi rs children := by
    rcases (Bool.or_eq_true _ _).mp list with list | list
    all_goals
      obtain rfl := eq_of_beq list
      exact h.each Rule.isExpr rfl (by decide)
  obtain ⟨rs, all, row⟩ := row
  exact (buildExprs_assembles ih row all).imp fun _ hxs => hxs.mono h.fits.lower

include ih in
theorem buildElements_assembles (h : (Tree.node .litBody start text children).Stands P size (k + 1) lo hi) :
    Assembles size countExprs (InRow (Expr.Laid P) start hi) (buildElements children) := by
  obtain ⟨rs, all, row⟩ := h.each (· == .element) rfl (by decide)
  exact assembles_each rfl (fun _ _ => rfl) (fun _ => rfl) (fun _ _ _ => rfl) row fun hr ht => ih.element ht (all _ hr)

include ih in
theorem buildElement_assembles (h : (Tree.node .element start text children).Stands P size (k + 1) lo hi) :
    Assembles size Expr.count (Expr.Laid P lo hi) (buildElement (.node .element start text children)) := by
  obtain row | row | row | row | row | row := h.rows [[.expr], [.litBody], [.expr, .expr], [.expr, .litBody],
    [.litBody, .expr], [.litBody, .litBody]] rfl
  iterate 2
    · obtain _ | ⟨t1, le | _⟩ := row
      exact (ih.expr t1 rfl).imp fun _ hx => hx.mono h.fits.lower le
  all_goals
    obtain _ | ⟨t1, _ | ⟨t2, le | _⟩⟩ := row
    refine .bind (ih.expr t1 rfl) fun x hx => .bind (ih.expr t2 rfl) fun y hy => ?_
    exact assembles_expr h.span (fun _ => ⟨rfl, fun _ => rfl, trivial⟩) (fun _ i => by grind) fun _ =>
      .cons ((hx.term false).mono h.fits.lower .refl) (.cons (hy.term false) (.nil le))

include ih in
theorem buildOperations_assembles (all : ∀ qs ∈ rounds, ∃ r, r.isExpr = true ∧ qs = [.binaryOp, r])
    (row : Row (Tree.Stands P size k) lo hi rounds.flatten ts) :
    Assembles size countOperations (InRow (fun lo hi p => p.2.Laid P lo hi) lo hi) (buildOperations span ts) := by
  induction rounds generalizing lo ts with
  | nil =>
    obtain ⟨le, rfl⟩ := row.none
    exact .pure (.nil le) fun i => .refl
  | cons qs rounds next =>
    obtain ⟨⟨r, expr, rfl⟩, others⟩ := forall_mem_cons.mp all
    obtain _ | ⟨t1, row1⟩ := row
    obtain _ | ⟨t2, row2⟩ := row1
    have operators : ((Rule.body .binaryOp).literals.getD []).all
        (fun s => (BinaryOp.ofText? (String.ofList (trim s))).isSome) = true := by decide +kernel
    obtain ⟨op, hop⟩ := Option.isSome_iff_exists.mp (all_eq_true.mp operators _ (t1.literal rfl))
    rw [buildOperations]
    simp only [Tree.word, Tree.text, hop]
    exact .bind (ih.expr t2 expr) fun x hx => .bind (next others row2) fun rest hrest =>
      .pure (.cons (hx.mono t1.le .refl) hrest) fun i => by grind

include ih in
/-- Operators in front of an operand, after those that have been read. -/
theorem buildUnary_assembles
    (all : ∀ qs ∈ rounds, qs = [.unaryOp]) {r : Rule} (operand : r = .primaryExpr ∨ r = .headerPrimaryExpr)
    (hops : ∀ p ∈ ops, lo ≤ p.2 ∧ p.2 ≤ mid) (hlo : lo ≤ mid)
    (row : Row (Tree.Stands P size k) mid hi (rounds.flatten ++ [r]) ts) :
    Assembles size Expr.count (Expr.Laid P lo hi) (buildUnary span ops ts) := by
  induction rounds generalizing mid ts ops with
  | nil =>
    obtain _ | ⟨t1, le | _⟩ := row
    have hops : ∀ p ∈ ops.reverse, lo ≤ p.2 ∧ p.2 ≤ mid := fun p hp => hops p (mem_reverse.mp hp)
    obtain rfl | rfl := operand
    all_goals
      exact .andThen (ih.expr t1 rfl) fun x hx => .draw (applyUnary_draws x _) fun n =>
        (applyUnary_laid hops hlo hx n).1.mono .refl le
  | cons qs rounds next =>
    obtain ⟨rfl, others⟩ := forall_mem_cons.mp all
    obtain _ | ⟨t1, row1⟩ := row
    rw [buildUnary]
    refine next others (forall_mem_cons.mpr ⟨⟨hlo.trans t1.fits.lower, ?_⟩, fun p hp => ?_⟩)
      (hlo.trans t1.le) row1
    · exact Nat.le_trans (Nat.le_add_right ..) t1.fits.upper
    · exact ⟨(hops p hp).1, Nat.le_trans (hops p hp).2 t1.le⟩

include ih in
theorem buildSuffixes_assembles (row : Row (Tree.Stands P size k) mid hi rs ts) (all : ∀ r ∈ rs, r.isSuffix = true)
    (hx : x.Laid P lo mid) : AssemblesFrom size (fun i => x.count i) Expr.count (Expr.Laid P lo hi)
      (buildSuffixes x ts) := by
  induction row generalizing x with
  | nil le => exact .pure (hx.mono .refl le) fun i => .refl
  | cons ht _ next =>
    obtain ⟨suffix, all⟩ := forall_mem_cons.mp all
    exact .andThen (ih.suffix hx ht suffix) fun y hy => next all hy

include ih in
theorem buildArgs_assembles (row : Row (Tree.Stands P size k) lo hi rs ts)
    (all : ∀ r ∈ rs, (r == .expr || r == .ellipsis) = true) :
    Assembles size (fun i r => countExprs i r.1) (fun r => InRow (Expr.Laid P) lo hi r.1) (buildArgs ts) := by
  induction row with
  | nil le => exact .pure (.nil le) fun i => .refl
  | cons ht rest next =>
    obtain ⟨first, others⟩ := forall_mem_cons.mp all
    rcases (Bool.or_eq_true _ _).mp first with first | first
    all_goals obtain rfl := eq_of_beq first
    · exact .bind (ih.expr ht rfl) fun x hx => .bind (next others) fun xs hxs =>
        .pure (.cons hx hxs) fun i => by grind
    · exact .pure (.nil (ht.le.trans (rest.le Tree.Stands.le))) fun i => .refl

include ih in
theorem buildBounds_assembles (h : (Tree.node .sliceSuffix start text children).Stands P size (k + 1) lo hi) :
    Assembles size SliceBounds.count (fun b => TermsLaid P start hi [exprTerm? b.lo, exprTerm? b.hi, exprTerm? b.max])
      (buildBounds {} children) := by
  let L (lo hi : Nat) (x : Option Expr) : Prop := (exprTerm? x).Laid P lo hi
  have absent {lo : Nat} : L lo lo none := absent_laid
  have bound {lo hi : Nat} {t : Tree} (ht : t.Stands P size k lo hi) (ok : t.rule.isExpr = true) :
      Assembles size (fun i x => countExpr? i (some x)) (L lo hi ∘ some) (buildExpr t) :=
    (ih.expr ht ok).imp fun _ hx => hx.term _
  have rows := h.rows (choices [.sliceLo, .sliceHi, .sliceMax]) rfl
  refine assembles_optional (f := fun x => buildBounds ⟨x, none, none⟩) (d := countExpr?) rows rfl rfl
    (fun _ _ _ _ => rfl)
    absent (fun _ => rfl) bound fun {x _ _} hx rows => ?_
  refine assembles_optional (f := fun y => buildBounds ⟨x, y, none⟩) (d := countExpr?) rows rfl rfl (fun _ _ _ _ => rfl)
    absent (fun _ => rfl) bound fun {y _ _} hy rows => ?_
  refine assembles_optional (f := fun z => buildBounds ⟨x, y, z⟩) (d := countExpr?) rows rfl rfl (fun _ _ _ _ => rfl)
    absent (fun _ => rfl) bound fun {z _ _} hz rows => ?_
  obtain ⟨le, rfl⟩ := Row.none rows
  exact .pure (.cons hx (.cons hy (.cons hz (.nil le)))) fun i => by grind

include ih in
theorem buildSuffix_assembles (hx : x.Laid P lo mid)
    (h : (Tree.node rule start text children).Stands P size (k + 1) mid hi) (suffix : rule.isSuffix = true) :
    AssemblesFrom size (fun i => x.count i) Expr.count (Expr.Laid P lo hi)
      (buildSuffix x (.node rule start text children)) := by
  have span : Span.Between lo hi ⟨x.info.span.start, (matchSpan start text).stop⟩ := hx.span.join h.span
  have first := (hx.term false).mono .refl h.fits.lower
  revert suffix
  cases rule <;> intro suffix <;> first | exact absurd suffix Bool.false_ne_true | skip
  case selectorSuffix =>
    obtain _ | ⟨t1, le | _⟩ := (h.row [.ident] rfl)
    refine .bind (buildIdent_assembles t1) fun sel hsel => .node (fun _ i => by grind)
      fun i hi => ⟨?_, known_nil, ?_, ?_⟩
    · change i.span.Between lo _
      rw [hi]
      exact span
    · exact .cons first (.cons (.fixed t1.le hsel) (.nil le))
    · cases x <;> first | trivial | exact (congrArg Span.start hi :)
  case typeAssertSuffix =>
    obtain ⟨t, rfl, ok, ht⟩ := h.only Rule.isType rfl rfl
    refine .bind (ih.type ht ok) fun ty hty => ?_
    exact assembles_expr span (fun _ => ⟨rfl, fun _ => rfl, trivial⟩) (fun _ i => by grind) fun _ =>
      .cons first (.cons (TypeExpr.laid hty ht.le) (.nil .refl))
  case indexSuffix =>
    obtain ⟨t, rfl, ok, ht⟩ := h.only Rule.isExpr rfl rfl
    refine .bind (ih.expr ht ok) fun y hy => ?_
    exact assembles_expr span (fun _ => ⟨rfl, fun _ => rfl, trivial⟩) (fun _ i => by grind) fun _ =>
      .cons first (.cons (hy.term _) (.nil .refl))
  case sliceSuffix =>
    refine .bind (buildBounds_assembles ih h) fun b hb => ?_
    exact assembles_expr span (fun _ => ⟨rfl, fun _ => rfl, trivial⟩) (fun _ i => by grind) fun _ => .cons first hb
  case callSuffix =>
    obtain ⟨rs, all, row⟩ := h.each (fun r => r == .expr || r == .ellipsis) rfl (by decide)
    refine .bind (buildArgs_assembles ih row all) fun r hr => ?_
    exact assembles_expr span (fun _ => ⟨rfl, fun _ => rfl, trivial⟩) (fun _ i => by grind) fun _ =>
      .cons first (.cons (hr.group true) (.nil .refl))
  case litSuffix =>
    obtain ⟨t, rfl, ok, ht⟩ := h.only (· == .litBody) rfl rfl
    refine .andThen (literalTypeOf_assembles ih.forget hx (h.le.trans h.upper)) fun ty hty =>
      .bind (ih.litBody ht ok) fun xs hxs => ?_
    have le : lo ≤ start := hx.parts.le.trans h.fits.lower
    exact assembles_expr span (fun _ => ⟨rfl, fun _ => rfl, trivial⟩) (fun _ i => by grind) fun _ =>
      .cons (TypeExpr.laid hty le) (.cons (hxs.group false) (.nil .refl))

theorem Pattern.Spells.single {p : Pattern} (h : p.Spells rs) (ok : Rule → Bool) {fs : List (List Rule)}
    (forms : p.forms = some fs) (single : fs.all (fun | [r] => ok r | _ => false) = true) :
      ∃ r, rs = [r] ∧ ok r = true := by
  have := all_eq_true.mp single rs (h.mem_forms forms)
  rcases rs with _ | ⟨r, _ | ⟨_, _⟩⟩
  · cases this
  · exact ⟨r, rfl, this⟩
  · cases this

include ih h in
theorem buildExpr_assembles (expr : rule.isExpr = true) :
    Assembles size Expr.count (Expr.Laid P start hi) (buildExpr (.node rule start text children)) := by
  have span := h.span_inside
  revert expr
  cases rule <;> intro expr <;> first | exact absurd expr Bool.false_ne_true | skip
  case imagLit | floatLit | intLit | runeLit | stringLit =>
    exact assembles_expr span (fun _ => ⟨rfl, fun _ => rfl, trivial⟩) (fun _ i => by grind) fun _ =>
      .nil (span.ordered.trans span.upper)
  case ident =>
    refine .node (fun _ i => by grind) fun i hi => ⟨?_, ?_, .nil (span.ordered.trans span.upper), trivial⟩
    · change i.span.Between _ _
      rw [hi]
      exact span
    · simpa [Expr.kind, Kind.spelled, Expr.info, hi, matchSpan] using h.ident.2
  case expr | headerExpr =>
    obtain ⟨_, ⟨_, rfl, _, ⟨rounds, rfl, all⟩, rfl⟩, row⟩ := h.inside rfl
    obtain _ | ⟨t1, row1⟩ := row
    have all : ∀ qs ∈ rounds, ∃ r, r.isExpr = true ∧ qs = [.binaryOp, r] := by
      intro qs hqs
      obtain ⟨_, rfl, _, rfl, rfl⟩ := all qs hqs
      exact ⟨_, rfl, rfl⟩
    exact .bind (ih.expr t1 rfl) fun x hx => .bind (buildOperations_assembles ih all row1) fun rest hrest =>
      .mono (.draw (foldBinary_draws [] x rest) fun n => foldBinary_laid hx hrest n) (fun i => by grind) fun _ => id
  case unaryExpr | headerUnaryExpr =>
    obtain ⟨_, ⟨_, ⟨rounds, rfl, all⟩, _, rfl, rfl⟩, row⟩ := h.inside rfl
    exact buildUnary_assembles ih all (by decide) (by simp) .refl row
  case primaryExpr | headerPrimaryExpr =>
    obtain ⟨_, ⟨_, operand, _, ⟨rounds, rfl, all⟩, rfl⟩, row⟩ := h.inside rfl
    obtain ⟨r, rfl, ok⟩ := operand.single Rule.isExpr rfl rfl
    obtain _ | ⟨t1, row1⟩ := row
    have suffixes : ∀ r ∈ rounds.flatten, r.isSuffix = true := by
      intro r hr
      obtain ⟨qs, hqs, hr⟩ := mem_flatten.mp hr
      obtain ⟨_, rfl, ok⟩ := (all qs hqs).single Rule.isSuffix rfl rfl
      rwa [mem_singleton.mp hr]
    exact .andThen (ih.expr t1 ok) fun x hx => buildSuffixes_assembles ih row1 suffixes hx
  case parenExpr =>
    obtain ⟨t, rfl, ok, ht⟩ := h.only Rule.isExpr rfl rfl
    refine .bind (ih.expr ht ok) fun x hx => ?_
    exact assembles_expr span (fun _ => ⟨rfl, fun _ => rfl, trivial⟩) (fun _ i => by grind) fun _ => .cons (hx.term _)
      (.nil .refl)
  case compositeLit =>
    obtain row | row | row | row := h.rows [[.sliceType, .litBody], [.arrayType, .litBody],
      [.mapType, .litBody], [.structType, .litBody]] rfl
    all_goals
      obtain _ | ⟨t1, _ | ⟨t2, le | _⟩⟩ := row
      refine .bind (ih.type t1 rfl) fun ty hty => .bind (ih.litBody t2 rfl) fun xs hxs => ?_
      exact assembles_expr span (fun _ => ⟨rfl, fun _ => rfl, trivial⟩) (fun _ i => by grind) fun _ =>
        .cons (TypeExpr.laid hty t1.le) (.cons (hxs.group false) (.nil le))
  case funcLit =>
    obtain _ | ⟨t1, _ | ⟨t2, le | _⟩⟩ := (h.row [.signature, .block] rfl)
    refine .bind (ih.signature t1 rfl) fun sig hsig => .bind (ih.block t2 rfl) fun body hbody => ?_
    exact assembles_expr span (fun _ => ⟨rfl, fun _ => rfl, trivial⟩) (fun _ i => by grind) fun _ =>
      .cons (Signature.laid hsig t1.le) (.cons hbody (.nil le))
  case typeOperand =>
    obtain ⟨t, rfl, ok, ht⟩ := h.only Rule.isType rfl rfl
    refine .bind (ih.type ht ok) fun ty hty => ?_
    exact assembles_expr span (fun _ => ⟨rfl, fun _ => rfl, trivial⟩) (fun _ i => by grind) fun _ =>
      .cons (TypeExpr.laid hty ht.le) (.nil .refl)
  case litBody =>
    refine .bind (buildElements_assembles ih h) fun xs hxs => ?_
    exact assembles_expr span (fun _ => ⟨rfl, fun _ => rfl, trivial⟩) (fun _ i => by grind) fun _ =>
      .cons absent_laid (.cons (hxs.group false) (.nil .refl))

/-! ### Statements -/

theorem assembles_stmt {make : Info → Stmt} {base : NodeId → Nat}
    (h : (Tree.node rule start text children).Stands P size (k + 1) lo hi) (info : ∀ i, (make i).info = i)
    (old : ∀ info i, (make info).count i ≤ base i + info.count i) (parts : ∀ i, TermsLaid P start hi (make i).parts) :
    AssemblesFrom size base Stmt.count (Stmt.Laid P lo hi)
      (Build.info (matchSpan start text) >>= fun i => pure (make i)) := by
  refine .node old fun i hi => ?_
  rw [Stmt.Laid, info i, hi]
  exact ⟨h.span, parts i⟩

theorem TermsLaid.append {us vs : List Term} (first : TermsLaid P lo mid us) (rest : TermsLaid P mid hi vs) :
    TermsLaid P lo hi (us ++ vs) := by
  induction us generalizing lo with
  | nil => exact rest.mono first.le .refl
  | cons t us ih =>
    cases first with
    | cons ht hus => exact .cons ht (ih hus)

theorem InRow.terms {α : Type} {f : List α → List Term} {as : List α}
    (h : InRow (fun lo hi a => TermsLaid P lo hi (f [a])) lo hi as) (nil : f [] = [])
    (cons : ∀ a as, f (a :: as) = f [a] ++ f as) : TermsLaid P lo hi (f as) := by
  induction h with
  | nil le =>
    rw [nil]
    exact .nil le
  | cons first _ ih =>
    rw [cons]
    exact first.append ih

include ih in
theorem buildStmts_assembles (row : Row (Tree.Stands P size k) lo hi rs ts) (all : ∀ r ∈ rs, r.isStmt = true) :
    Assembles size countStmts (InRow (Stmt.Laid P) lo hi) (buildStmts ts) :=
  assembles_each rfl (fun _ _ => rfl) (fun _ => rfl) (fun _ _ _ => rfl) row fun hr ht => ih.stmt ht (all _ hr)

include ih h in
theorem buildBlock_assembles (block : (rule == .block || rule == .caseBody) = true) :
    Assembles size Block.count (fun b => b.term.Laid P lo hi) (buildBlock (.node rule start text children)) := by
  have row : ∃ rs, (∀ r ∈ rs, r.isStmt = true) ∧ Row (Tree.Stands P size k) start hi rs children := by
    rcases (Bool.or_eq_true _ _).mp block with block | block
    all_goals
      obtain rfl := eq_of_beq block
      exact h.each Rule.isStmt rfl (by decide)
  obtain ⟨rs, all, row⟩ := row
  exact .bind (buildStmts_assembles ih row all) fun ss hss => .node (fun _ i => by grind) fun _ _ =>
    .block (hss.statements.mono h.fits.lower .refl)

theorem assignOpOf_assembles (h : (Tree.node .assignOp start text children).Stands P size k lo hi) :
    Assembles size (fun _ _ => 0) (fun _ => True) (assignOpOf (.node .assignOp start text children)) := by
  have operators : ((Rule.body .assignOp).literals.getD []).all (fun s =>
      String.ofList (trim s) == "=" || String.ofList (trim s) == ":=" || (BinaryOp.ofText? (String.ofList
        ((String.ofList (trim s)).toList.reverse.dropWhile (· == '=')).reverse)).isSome) = true := by
    decide +kernel
  have known := all_eq_true.mp operators _ (h.literal rfl)
  simp only [Bool.or_eq_true] at known
  by_cases plain : ((Tree.node .assignOp start text children).word == "=") = true
  · simp only [assignOpOf, plain, ↓reduceIte]
    exact .pure trivial fun i => .refl
  by_cases define : ((Tree.node .assignOp start text children).word == ":=") = true
  · simp only [assignOpOf, plain, define, Bool.false_eq_true, ↓reduceIte]
    exact .pure trivial fun i => .refl
  obtain ⟨op, hop⟩ := Option.isSome_iff_exists.mp (known.resolve_left (not_or.mpr ⟨plain, define⟩))
  simp only [assignOpOf, plain, define, Bool.false_eq_true, ↓reduceIte]
  erw [hop]
  exact .pure trivial fun i => .refl

/-- What follows the statement of a header, up to the other branch. -/
def condRest : List (List Rule) :=
  [[.headerExpr, .block], [.headerExpr, .block, .ifStmt], [.headerExpr, .block, .block]]

include ih in
theorem cond_assembles (h : (Tree.node .ifStmt start text children).Stands P size (k + 1) lo hi)
    (hinit : (stmtTerm? init).Laid P start mid) (rows : AnyRow (Tree.Stands P size k) mid hi ts condRest) :
    AssemblesFrom size (fun i => countStmt? i init) Stmt.count (Stmt.Laid P lo hi)
      (buildCondFrom (matchSpan start text) init none none none ts) := by
  obtain row | row | row := rows
  · obtain _ | ⟨t1, _ | ⟨t2, le | _⟩⟩ := row
    refine .bind (ih.expr t1 rfl) fun test htest => .bind (ih.block t2 rfl) fun body hbody => ?_
    exact assembles_stmt h (fun _ => rfl) (fun _ i => by grind) fun _ =>
      .cons hinit (.cons (htest.term _) (.cons hbody (.cons absent_laid (.nil le))))
  all_goals
    obtain _ | ⟨t1, _ | ⟨t2, _ | ⟨t3, le | _⟩⟩⟩ := row
    refine .bind (ih.expr t1 rfl) fun test htest => .bind (ih.block t2 rfl) fun body hbody =>
      .bind (ih.stmt t3 rfl) fun other hother => ?_
    exact assembles_stmt h (fun _ => rfl) (fun _ i => by grind) fun _ =>
      .cons hinit (.cons (htest.term _) (.cons hbody (.cons hother.group (.nil le))))

include ih in
theorem buildCond_assembles (h : (Tree.node .ifStmt start text children).Stands P size (k + 1) lo hi) :
    Assembles size Stmt.count (Stmt.Laid P lo hi) (buildStmt (.node .ifStmt start text children)) := by
  rcases AnyRow.optional (h.rows (condRest ++ condRest.map (.ifInit :: ·)) rfl)
    with rows | ⟨_, _, _, _, _, t1, rest, rfl⟩
  · have noInit : (stmtTerm? none).Laid P start start := absent_laid
    exact cond_assembles ih h noInit rows
  · obtain ⟨t, rfl, ok, ht⟩ := t1.wrapped Rule.isStmt rfl rfl
    exact .andThen (ih.stmt ht ok) fun s hs => cond_assembles ih h hs.group rest

include ih in
theorem buildRange_assembles (h : (Tree.node .rangeClause start text children).Stands P size (k + 1) lo hi) :
    Assembles size RangeParts.count (fun r => TermsLaid P start hi
      [.group (targetKind r.define) none [exprTerm? r.key, exprTerm? r.value], r.x.term false])
      (buildRange (matchSpan start text) [] false none children) := by
  have targets {define : Bool} {m : Nat} {us : List Term} (laid : TermsLaid P start m us) :
      (Term.group (targetKind define) none us).Laid P start m :=
    .group (by rw [targetKind_spelled]; exact known_nil) laid
  obtain row | row := h.rows [[.headerExpr], [.headerExprList, .rangeOp, .headerExpr]] rfl
  · obtain _ | ⟨t1, le | _⟩ := row
    exact .bind (ih.expr t1 rfl) fun x hx => .pure (.cons
      (targets (.cons absent_laid (.cons absent_laid (.nil .refl)))) (.cons (hx.term _) (.nil le))) fun i => by grind
  · obtain _ | ⟨t1, _ | ⟨t2, _ | ⟨t3, le | _⟩⟩⟩ := row
    refine .bind (ih.exprList t1 rfl) fun xs hxs => .bind (ih.expr t3 rfl) fun x hx => ?_
    have hx := (hx.term false).mono t2.le .refl
    rcases xs with _ | ⟨key, _ | ⟨value, _ | ⟨_, _⟩⟩⟩
    · exact .pure (.cons (targets (.cons absent_laid (.cons absent_laid (hxs.exprs false)))) (.cons hx (.nil le)))
        fun i => by grind
    · cases hxs with
      | cons hk hxs => exact .pure (.cons (targets (.cons (hk.term _) (.cons absent_laid (hxs.exprs false))))
          (.cons hx (.nil le))) fun i => by grind
    · cases hxs with
      | cons hk hxs =>
        cases hxs with
        | cons hv hxs => exact .pure (.cons (targets (.cons (hk.term _) (.cons (hv.term _) (hxs.exprs false))))
            (.cons hx (.nil le))) fun i => by grind
    · exact .fail (reported h.between (by decide))

include ih in
theorem buildForParts_assembles (h : (Tree.node .forClause start text children).Stands P size (k + 1) lo hi) :
    Assembles size ForParts.count (fun p => TermsLaid P start hi [stmtTerm? p.init, exprTerm? p.test, stmtTerm? p.post])
      (buildForParts {} children) := by
  let L (lo hi : Nat) (s : Option Stmt) : Prop := (stmtTerm? s).Laid P lo hi
  let M (lo hi : Nat) (x : Option Expr) : Prop := (exprTerm? x).Laid P lo hi
  have noStmt {lo : Nat} : L lo lo none := absent_laid
  have noTest {lo : Nat} : M lo lo none := absent_laid
  have stmt {lo hi : Nat} {t : Tree} (ht : t.Stands P size k lo hi) (ok : t.rule.isStmt = true) :
      Assembles size (fun i s => countStmt? i (some s)) (L lo hi ∘ some) (buildStmt t) :=
    (ih.stmt ht ok).imp fun _ hs => hs.group
  have test {lo hi : Nat} {t : Tree} (ht : t.Stands P size k lo hi) (ok : t.rule.isExpr = true) :
      Assembles size (fun i x => countExpr? i (some x)) (M lo hi ∘ some) (buildExpr t) :=
    (ih.expr ht ok).imp fun _ hx => hx.term _
  have rows := h.rows (choices [.forInit, .forCond, .forPost]) rfl
  refine assembles_optional (f := fun s => buildForParts ⟨s, none, none⟩) (d := countStmt?) rows rfl rfl
    (fun _ _ _ _ => rfl) noStmt (fun _ => rfl) stmt fun {s _ _} hs rows => ?_
  refine assembles_optional (f := fun x => buildForParts ⟨s, x, none⟩) (d := countExpr?) rows rfl rfl
    (fun _ _ _ _ => rfl) noTest (fun _ => rfl) test fun {x _ _} hx rows => ?_
  refine assembles_optional (f := fun t => buildForParts ⟨s, x, t⟩) (d := countStmt?) rows rfl rfl
    (fun _ _ _ _ => rfl) noStmt (fun _ => rfl) stmt fun {t _ _} ht rows => ?_
  obtain ⟨le, rfl⟩ := Row.none rows
  exact .pure (.cons hs (.cons hx (.cons ht (.nil le)))) fun i => by grind

include ih in
theorem for_assembles (h : (Tree.node .forStmt start text children).Stands P size (k + 1) lo hi) :
    Assembles size Stmt.count (Stmt.Laid P lo hi) (buildStmt (.node .forStmt start text children)) := by
  obtain row | row | row | row := h.rows
    [[.block], [.rangeClause, .block], [.forClause, .block], [.forCond, .block]] rfl
  · obtain _ | ⟨t1, le | _⟩ := row
    refine .bind (ih.block t1 rfl) fun body hbody => ?_
    exact assembles_stmt h (fun _ => rfl) (fun _ i => by grind) fun _ =>
      .cons absent_laid (.cons absent_laid (.cons absent_laid (.cons hbody (.nil le))))
  all_goals obtain _ | ⟨t1, _ | ⟨t2, le | _⟩⟩ := row
  · refine .bind (buildRange_assembles ih t1.weaken) fun r hr => .bind (ih.block t2 rfl) fun body hbody => ?_
    exact assembles_stmt h (fun _ => rfl) (fun _ i => by grind) fun _ =>
      (hr.mono t1.fits.lower .refl).append (.cons hbody (.nil le))
  · refine .bind (buildForParts_assembles ih t1.weaken) fun p hp => .bind (ih.block t2 rfl) fun body hbody => ?_
    exact assembles_stmt h (fun _ => rfl) (fun _ i => by grind) fun _ =>
      (hp.mono t1.fits.lower .refl).append (.cons hbody (.nil le))
  · obtain ⟨t, rfl, ok, ht⟩ := t1.wrapped Rule.isExpr rfl rfl
    refine .bind (ih.expr ht ok) fun x hx => .bind (ih.block t2 rfl) fun body hbody => ?_
    exact assembles_stmt h (fun _ => rfl) (fun _ i => by grind) fun _ =>
      .cons absent_laid (.cons (hx.term _) (.cons absent_laid (.cons hbody (.nil le))))

theorem clauseTerms_append (cs ds : List CaseClause) : clauseTerms (cs ++ ds) = clauseTerms cs ++ clauseTerms ds :=
  append_of_cons rfl (fun c _ => by cases c <;> rfl) cs ds

include ih in
theorem switch_assembles (h : (Tree.node .switchStmt start text children).Stands P size (k + 1) lo hi)
    {tag : Option Expr} {mid' last : Nat} {clauses : List CaseClause} (hinit : (stmtTerm? init).Laid P start mid)
    (htag : (exprTerm? tag).Laid P mid mid') (hclauses : TermsLaid P mid' last (clauseTerms clauses))
    (row : Row (Tree.Stands P size k) last hi rs ts) (all : ∀ r ∈ rs, (r == .caseClause) = true) :
    AssemblesFrom size (fun i => countStmt? i init + countExpr? i tag + countClauses i clauses) Stmt.count
      (Stmt.Laid P lo hi) (buildSwitchFrom (matchSpan start text) init tag clauses ts) := by
  induction rs generalizing ts last clauses with
  | nil =>
    obtain ⟨le, rfl⟩ := row.none
    exact assembles_stmt h (fun _ => rfl) (fun _ i => by grind) fun _ => .cons hinit (.cons htag
      (.cons (.group known_nil (hclauses.mono .refl le)) (.nil .refl)))
  | cons r rs more =>
    obtain ⟨first, others⟩ := forall_mem_cons.mp all
    obtain rfl := eq_of_beq first
    obtain _ | ⟨t1, rest⟩ := row
    refine .bind (ih.clause t1 rfl) fun c hc => (more ?_ rest others).mono (fun i => ?_) fun _ => id
    · rw [clauseTerms_append]
      exact hclauses.append hc
    · rw [← countAll_clauses i (clauses ++ [c]), clauseTerms_append, countAll_append, countAll_clauses,
        countAll_clauses]
      exact Nat.le_of_eq (Nat.add_assoc ..).symm

include ih in
theorem buildSwitch_assembles (h : (Tree.node .switchStmt start text children).Stands P size (k + 1) lo hi) :
    Assembles size Stmt.count (Stmt.Laid P lo hi) (buildStmt (.node .switchStmt start text children)) := by
  obtain ⟨rs, ⟨_, rfl, _, ⟨_, hinit, _, ⟨_, htag, _, ⟨_, rfl, _, ⟨_, ⟨rounds, rfl, hrounds⟩, _, rfl, rfl⟩,
    rfl⟩, rfl⟩, rfl⟩, rfl⟩, row⟩ := h.inside rfl
  have all : ∀ r ∈ rounds.flatten, (r == .caseClause) = true := by
    intro r hr
    obtain ⟨qs, hqs, hr⟩ := mem_flatten.mp hr
    obtain rfl := hrounds qs hqs
    exact beq_iff_eq.mpr (mem_singleton.mp hr)
  have noInit : (stmtTerm? none).Laid P start start := absent_laid
  have noTag {m : Nat} : (exprTerm? none).Laid P m m := absent_laid
  rcases hinit with rfl | ⟨_, rfl, _, rfl, rfl⟩ <;> rcases htag with rfl | rfl <;>
    simp only [nil_append, append_nil] at row
  · exact (switch_assembles ih h noInit noTag (.nil .refl) row all).mono (fun _ => .refl) fun _ => id
  · obtain _ | ⟨t1, clauses⟩ := row
    obtain ⟨t, rfl, ok, ht⟩ := t1.wrapped Rule.isExpr rfl rfl
    exact .bind (ih.expr ht ok) fun x hx =>
      (switch_assembles ih h noInit (hx.term _) (.nil .refl) clauses all).mono (fun i => by grind) fun _ => id
  · obtain _ | ⟨t1, clauses⟩ := row
    obtain ⟨t, rfl, ok, ht⟩ := t1.wrapped Rule.isStmt rfl rfl
    exact .bind (ih.stmt ht ok) fun s hs =>
      (switch_assembles ih h hs.group noTag (.nil .refl) clauses all).mono (fun i => by grind) fun _ => id
  · obtain _ | ⟨t1, row1⟩ := row
    obtain _ | ⟨t2, clauses⟩ := row1
    obtain ⟨t, rfl, ok, ht⟩ := t1.wrapped Rule.isStmt rfl rfl
    obtain ⟨u, rfl, ok', hu⟩ := t2.wrapped Rule.isExpr rfl rfl
    exact .bind (ih.stmt ht ok) fun s hs => .bind (ih.expr hu ok') fun x hx =>
      (switch_assembles ih h hs.group (hx.term _) (.nil .refl) clauses all).mono (fun i => by grind) fun _ => id

include ih h in
theorem buildStmt_assembles (stmt : rule.isStmt = true) :
    Assembles size Stmt.count (Stmt.Laid P lo hi) (buildStmt (.node rule start text children)) := by
  have alone {x : Expr} {mid : Nat} (hx : x.Laid P start mid) (le : mid ≤ hi) : TermsLaid P start hi [x.term false] :=
    .cons (hx.term false) (.nil le)
  have assign {lhs rhs : List Expr} {op : AssignOp} {mid mid' : Nat} (hlhs : InRow (Expr.Laid P) start mid lhs)
      {base : NodeId → Nat} (hrhs : InRow (Expr.Laid P) mid mid' rhs) (le : mid' ≤ hi)
      (old : ∀ i, countExprs i lhs + countExprs i rhs ≤ base i) :
        AssemblesFrom size base Stmt.count (Stmt.Laid P lo hi) (do
        return .assign (← Build.info (matchSpan start text)) lhs op rhs) :=
    assembles_stmt h (fun _ => rfl) (fun _ i => by grind) fun _ => .cons
      (.group (by rw [targetKind_spelled]; exact known_nil) (hlhs.exprs false))
      (.cons (hrhs.group true) (.nil le))
  cases rule <;> try cases stmt
  case returnStmt =>
    obtain row | row := h.rows [[], [.exprList]] rfl
    · obtain ⟨le, rfl⟩ := Row.none row
      exact assembles_stmt h (fun _ => rfl) (fun _ i => by grind) fun _ => .cons ((InRow.nil le).group true)
        (.nil .refl)
    · obtain _ | ⟨t1, le | _⟩ := row
      refine .bind (ih.exprList t1 rfl) fun xs hxs => ?_
      exact assembles_stmt h (fun _ => rfl) (fun _ i => by grind) fun _ => .cons (hxs.group true) (.nil le)
  case ifStmt => exact buildCond_assembles ih h
  case forStmt => exact for_assembles ih h
  case switchStmt => exact buildSwitch_assembles ih h
  case branchStmt =>
    exact assembles_stmt h (fun _ => rfl) (fun _ i => by grind) fun _ => .nil (h.span_inside.ordered.trans h.span.upper)
  case block =>
    obtain ⟨rs, all, row⟩ := h.each Rule.isStmt rfl (by decide)
    refine .bind (buildStmts_assembles ih row all) fun ss hss => .bind .info fun i _ => ?_
    exact assembles_stmt h (fun _ => rfl) (fun _ i => by grind) fun _ => .cons (.block hss.statements) (.nil .refl)
  case declStmt =>
    obtain ⟨t, rfl, ok, ht⟩ := h.only Rule.isDecl rfl rfl
    refine .bind (ih.decl ht ok) fun d hd => ?_
    exact assembles_stmt h (fun _ => rfl) (fun _ i => by grind) fun _ => .cons hd (.nil .refl)
  case goStmt | deferStmt | exprStmt | headerExprStmt =>
    obtain ⟨t, rfl, ok, ht⟩ := h.only Rule.isExpr rfl rfl
    refine .bind (ih.expr ht ok) fun x hx => ?_
    exact assembles_stmt h (fun _ => rfl) (fun _ i => by grind) fun _ => alone hx .refl
  case assignStmt | headerAssignStmt =>
    obtain _ | ⟨t1, _ | ⟨t2, _ | ⟨t3, le | _⟩⟩⟩ := (h.row [_, .assignOp, _] rfl)
    exact .bind (ih.exprList t1 rfl) fun lhs hlhs => .bind (assignOpOf_assembles t2) fun op _ =>
      .bind (ih.exprList t3 rfl) fun rhs hrhs => assign hlhs (hrhs.mono t2.le) le fun i => by grind
  case incdecStmt | headerIncdecStmt =>
    obtain _ | ⟨t1, _ | ⟨t2, le | _⟩⟩ := (h.row [_, .incdecOp] rfl)
    refine .bind (ih.expr t1 rfl) fun x hx => ?_
    exact assembles_stmt h (fun _ => rfl) (fun _ i => by grind) fun _ => alone hx (t2.le.trans le)

/-! ### Declarations -/

include ih in
theorem buildClause_assembles (h : (Tree.node .caseClause start text children).Stands P size (k + 1) lo hi) :
    Assembles size (fun i c => countClauses i [c]) (fun c => TermsLaid P lo hi (clauseTerms [c]))
      (buildClause (.node .caseClause start text children)) := by
  have whole {kind : Kind} {i : Info} {us : List Term} (own : kind.spelled (infoStart? (some i)) = [])
      (laid : TermsLaid P start hi us) : TermsLaid P lo hi [.group kind i us] :=
    .cons (.group (by rw [own]; exact known_nil) (laid.mono h.fits.lower .refl)) (.nil .refl)
  obtain row | row := h.rows [[.exprList, .caseBody], [.caseBody]] rfl
  · obtain _ | ⟨t1, _ | ⟨t2, le | _⟩⟩ := row
    refine .bind (ih.exprList t1 rfl) fun xs hxs => .bind (ih.block t2 rfl) fun b hb =>
      .node (fun _ i => by grind) fun i _ => ?_
    exact whole rfl (.cons (hxs.group false) (.cons hb (.nil le)))
  · obtain _ | ⟨t1, le | _⟩ := row
    refine .bind (ih.block t1 rfl) fun b hb => .node (fun _ i => by grind) fun i _ => ?_
    exact whole rfl (.cons hb (.nil le))

include ih in
theorem buildTypeSpec_assembles (h : (Tree.node .typeSpec start text children).Stands P size (k + 1) lo hi) :
    Assembles size (fun i s => countTypeSpecs i [s]) (fun s => Known P s.spelled)
      (buildTypeSpec (.node .typeSpec start text children)) := by
  have both {i : Info} {x : Ident} {isAlias : Bool} {ty : TypeExpr} (hx : Known P x.spelled)
      (hty : Known P ty.spelled) : Known P (TypeSpec.mk i x isAlias ty).spelled := by
    simpa [TypeSpec.spelled, typeSpecTerms, spelledAll, Term.spelled, Kind.spelled] using ⟨hx, hty⟩
  obtain row | row := h.rows [[.ident, .typeExpr], [.ident, .aliasEq, .typeExpr]] rfl
  · obtain _ | ⟨t1, _ | ⟨t2, _ | _⟩⟩ := row
    exact .bind (buildIdent_assembles t1) fun _ hx => .bind (ih.type t2 rfl) fun _ hty =>
      .node (fun _ i => by grind) fun _ _ => both hx hty
  · obtain _ | ⟨t1, _ | ⟨_, _ | ⟨t3, _ | _⟩⟩⟩ := row
    exact .bind (buildIdent_assembles t1) fun _ hx => .bind (ih.type t3 rfl) fun _ hty =>
      .node (fun _ i => by grind) fun _ _ => both hx hty

theorem valueSpec_laid {i : Info} {names : List Ident} {ty : Option TypeExpr}
    (hnames : Known P (names.flatMap Ident.spelled)) (hty : Known P (spelled? TypeExpr.spelled ty))
    (hxs : InRow (Expr.Laid P) lo hi xs) : TermsLaid P lo hi (valueSpecTerms [⟨i, names, ty, xs⟩]) := by
  have typed : (typeTerm? ty).Laid P lo lo := by
    cases ty with
    | none => exact absent_laid
    | some ty => exact ty.laid hty .refl
  have named : (Term.fixed .names none (names.map Ident.term)).Laid P lo lo :=
    .fixed .refl (by simpa [Term.spelled, Kind.spelled] using hnames)
  exact .cons (.group known_nil (.cons named (.cons typed (.cons (hxs.group true) (.nil .refl)))))
    (.nil .refl)

include ih h in
theorem buildValueSpec_assembles (spec : (rule == .varSpec || rule == .constSpec) = true) :
    Assembles size (fun i s => countValueSpecs i [s]) (fun s => TermsLaid P lo hi (valueSpecTerms [s]))
      (buildValueSpec (.node rule start text children)) := by
  have laid {i : Info} {names : List Ident} {ty : Option TypeExpr} {xs : List Expr}
      (hnames : Known P (names.flatMap Ident.spelled)) (hty : Known P (spelled? TypeExpr.spelled ty)) {lo' hi' : Nat}
      (lower : start ≤ lo') (upper : hi' ≤ hi) (hxs : InRow (Expr.Laid P) lo' hi' xs) :=
    (valueSpec_laid (i := i) hnames hty hxs).mono (h.fits.lower.trans lower) upper
  have rows : AnyRow (Tree.Stands P size k) start hi children [[.identList], [.identList, .typeExpr],
      [.identList, .exprList], [.identList, .typeExpr, .exprList]] := by
    rcases (Bool.or_eq_true _ _).mp spec with spec | spec <;> obtain rfl := eq_of_beq spec
    · exact AnyRow.mono (h.rows
        [[.identList, .typeExpr], [.identList, .typeExpr, .exprList], [.identList, .exprList]] rfl) (by simp)
    · exact AnyRow.mono (h.rows
        [[.identList], [.identList, .exprList], [.identList, .typeExpr, .exprList]] rfl) (by simp)
  obtain row | row | row | row := rows
  · obtain _ | ⟨t1, le | _⟩ := row
    exact .bind (buildIdents_assembles t1.weaken) fun _ hnames => .node (fun _ i => by grind) fun _ _ =>
      laid hnames known_nil t1.le le (.nil .refl)
  · obtain _ | ⟨t1, _ | ⟨t2, le | _⟩⟩ := row
    exact .bind (buildIdents_assembles t1.weaken) fun _ hnames => .bind (ih.type t2 rfl) fun _ hty =>
      .node (fun _ i => by grind) fun _ _ => laid hnames hty t1.le le (.nil t2.le)
  · obtain _ | ⟨t1, _ | ⟨t2, le | _⟩⟩ := row
    exact .bind (buildIdents_assembles t1.weaken) fun _ hnames => .bind (ih.exprList t2 rfl) fun _ hxs =>
      .node (fun _ i => by grind) fun _ _ => laid hnames known_nil t1.le le hxs
  · obtain _ | ⟨t1, _ | ⟨t2, _ | ⟨t3, le | _⟩⟩⟩ := row
    exact .bind (buildIdents_assembles t1.weaken) fun _ hnames => .bind (ih.type t2 rfl) fun _ hty =>
      .bind (ih.exprList t3 rfl) fun _ hxs => .node (fun _ i => by grind) fun _ _ =>
      laid hnames hty (t1.le.trans t2.le) le hxs

include ih h in
theorem buildDecl_assembles (decl : rule.isDecl = true) :
    Assembles size Decl.count (fun d => d.term.Laid P lo hi) (buildDecl (.node rule start text children)) := by
  have valueSpecs {rs : List Rule} (all : ∀ r ∈ rs, (r == .varSpec || r == .constSpec) = true)
      (row : Row (Tree.Stands P size k) start hi rs children) :
      Assembles size countValueSpecs (fun ss => TermsLaid P lo hi (valueSpecTerms ss)) (buildValueSpecs children) := by
    have each : Assembles size countValueSpecs (InRow (fun lo hi s => TermsLaid P lo hi (valueSpecTerms [s])) start hi)
        (buildValueSpecs children) :=
      assembles_each rfl (fun _ _ => rfl) (fun _ => rfl) (by rintro _ ⟨⟩ _; grind) row
        fun hr ht => ih.valueSpec ht (all _ hr)
    exact each.imp fun _ hss =>
      (hss.terms rfl (by rintro ⟨⟩ _; rfl)).mono h.fits.lower .refl
  cases rule <;> try cases decl
  case typeDecl =>
    obtain ⟨rs, all, row⟩ := h.each (· == .typeSpec) rfl (by decide)
    refine .bind (assembles_each (d := countTypeSpecs) (Q := fun _ _ s => Known P s.spelled) rfl (fun _ _ => rfl)
      (fun _ => rfl) (by rintro _ ⟨⟩ _; grind) row fun hr ht => ih.typeSpec ht (all _ hr)) fun ss hss =>
      .pure (.fixed h.le ?_) fun i => by grind
    simpa [Term.spelled, Kind.spelled] using known_flatMap.mpr hss.forall
  case varDecl | constDecl =>
    obtain ⟨rs, all, row⟩ := h.each (fun r => r == .varSpec || r == .constSpec) rfl (by decide)
    exact .bind (valueSpecs all row) fun ss hss => .pure (.group known_nil hss) fun i => by grind

end Level

/-! ## Files -/

section BuiltFrom

variable {P : Name → Prop} {size k : Nat} {α : Type} {ok : Rule → Bool} {Q : Nat → Nat → α → Prop}
  {c : NodeId → α → Nat} {build : Tree → Build α}

theorem of_node (h : ∀ {rule start text children lo hi}, (Tree.node rule start text children).Stands P size k lo hi →
    ok rule = true → Assembles size c (Q lo hi) (build (.node rule start text children))) :
    BuiltFrom P size k ok c Q build := by
  rintro ⟨_, _, _, _⟩ _ _ stands rule
  exact h stands rule

theorem of_rule (h : ∀ {start text children lo hi}, (Tree.node rule start text children).Stands P size k lo hi →
      Assembles size c (Q lo hi) (build (.node rule start text children))) :
        BuiltFrom P size k (· == rule) c Q build := by
  rintro ⟨_, _, _, _⟩ _ _ stands here
  obtain rfl := eq_of_beq here
  exact h stands

end BuiltFrom

/-- The builders assemble trees of every size. -/
theorem assembly (forget : ∀ x o, P (x, some o) → P (x, none)) (size k : Nat) : Assembly P size k := by
  induction k with
  | zero =>
    have none {t : Tree} {lo hi : Nat} (h : t.Stands P size 0 lo hi) : False := Nat.not_lt_zero _ h.small
    constructor
    · exact forget
    all_goals first | exact fun h => (none h).elim | exact fun _ h => (none h).elim
  | succ k ih =>
    exact {
      forget
      type := of_node (buildType_assembles ih)
      field := of_rule (buildField_assembles ih)
      member := of_rule (buildMember_assembles ih)
      params := of_rule (Q := fun _ _ (fs : List Field) => Known P (fs.flatMap Field.spelled)) fun h =>
        .andThen (buildRawParams_assembles ih h) fun _ hraw => fieldsOfParams_assembles h.between hraw
      rawParam := of_rule (buildRawParam_assembles ih)
      signature := of_rule (buildSignature_assembles ih)
      exprList := of_node (buildExprList_assembles ih)
      expr := of_node fun h expr =>
        (buildExpr_assembles ih h expr).imp fun _ hx => hx.mono h.fits.lower .refl
      suffix := by
        rintro ⟨_, _, _, _⟩ _ _ _ _ hx h suffix
        exact buildSuffix_assembles ih hx h suffix
      litBody := of_rule fun h =>
        (buildElements_assembles ih h).imp fun _ hxs => hxs.mono h.fits.lower
      element := of_rule (buildElement_assembles ih)
      block := of_node (buildBlock_assembles ih)
      stmt := of_node (buildStmt_assembles ih)
      clause := of_rule (buildClause_assembles ih)
      decl := of_node (buildDecl_assembles ih)
      typeSpec := of_rule (buildTypeSpec_assembles ih)
      valueSpec := of_node (buildValueSpec_assembles ih) }

section Files

variable {P : Name → Prop} {size k lo mid hi : Nat} {t : Tree} {ts children : List Tree} {start : Nat}
  {text : List Char} (forget : ∀ x o, P (x, some o) → P (x, none))

attribute [local grind =] Import.term identTerm? fieldTerm? blockTerm? FuncDecl.term TopDecl.term File.term Term.count
  countAll countInfo? count_absent Ident.count_term Field.count_term Signature.count_term Block.count_term
  Decl.count_term FileParts.count countAll_append

theorem Ident.laid {x : Ident} (known : Known P x.spelled) (le : lo ≤ hi) : x.term.Laid P lo hi := .fixed le known

theorem FuncDecl.laid {f : FuncDecl} (recv : Known P (spelled? Field.spelled f.recv))
    (name : Known P f.name.spelled) (sig : Known P f.sig.spelled) (body : (blockTerm? f.body).Laid P mid hi)
    (le : lo ≤ mid) : f.term.Laid P lo hi := by
  obtain ⟨i, recv?, x, s, body?⟩ := f
  have received : (fieldTerm? recv?).Laid P lo lo := by
    cases recv? with
    | none => exact absent_laid
    | some f =>
      obtain ⟨_, _, _⟩ := f
      exact .fixed .refl recv
  exact .group known_nil (.cons received (.cons (Ident.laid name .refl)
    (.cons (s.laid sig le) (.cons body (.nil .refl)))))

theorem buildImport_assembles (h : (Tree.node .importSpec start text children).Stands P size (k + 1) lo hi) :
    Assembles size (fun i x => x.term.count i) (fun i => Known P i.term.spelled)
      (buildImport (.node .importSpec start text children)) := by
  obtain row | row := h.rows [[.stringLit], [.ident, .stringLit]] rfl
  · obtain _ | ⟨_, _ | _⟩ := row
    exact .node (fun _ i => by grind) fun _ _ => known_nil
  · obtain _ | ⟨t1, _ | ⟨_, _ | _⟩⟩ := row
    refine .bind (buildIdent_assembles t1) fun x hx => .node (fun _ i => by grind) fun _ _ => ?_
    simpa [Import.term, Term.spelled, Kind.spelled, spelledAll] using hx

include forget in
theorem buildReceiver_assembles (h : (Tree.node .receiver start text children).Stands P size (k + 1) lo hi) :
    Assembles size (fun i f => (fieldTerm? f).count i) (fun f => Known P (spelled? Field.spelled f))
      (buildReceiver (.node .receiver start text children)) := by
  obtain _ | ⟨t1, _ | _⟩ := (h.row [.params] rfl)
  refine .bind ((assembly forget size k).params t1 rfl) fun fs hfs => ?_
  cases fs with
  | nil => exact .pure known_nil fun i => by grind
  | cons f fs => exact .pure (known_flatMap.mp hfs f mem_cons_self) fun i => by grind

include forget in
theorem buildFunc_assembles (h : (Tree.node .funcDecl start text children).Stands P size (k + 1) lo hi) :
    Assembles size (fun i f => f.term.count i) (fun f => f.term.Laid P lo hi)
      (buildFunc (.node .funcDecl start text children)) := by
  have level := assembly forget size k
  have noBody {lo : Nat} : (blockTerm? none).Laid P lo lo := absent_laid
  have laid {f : FuncDecl} {mid hi' : Nat} (recv : Known P (spelled? Field.spelled f.recv))
      (name : Known P f.name.spelled) (sig : Known P f.sig.spelled) (body : (blockTerm? f.body).Laid P mid hi')
      (le : start ≤ mid) (le' : hi' ≤ hi) : f.term.Laid P lo hi :=
    (FuncDecl.laid recv name sig body le).mono h.fits.lower le'
  obtain row | row | row | row := h.rows [[.ident, .signature], [.ident, .signature, .block],
    [.receiver, .ident, .signature], [.receiver, .ident, .signature, .block]] rfl
  · obtain _ | ⟨t1, _ | ⟨t2, le | _⟩⟩ := row
    refine .bind (buildIdent_assembles t1) fun x hx => .bind (level.signature t2 rfl) fun s hs =>
      .node (fun _ i => by grind) fun _ _ => ?_
    exact laid known_nil hx hs noBody (t1.le.trans t2.le) le
  · obtain _ | ⟨t1, _ | ⟨t2, _ | ⟨t3, le | _⟩⟩⟩ := row
    refine .bind (buildIdent_assembles t1) fun x hx => .bind (level.signature t2 rfl) fun s hs =>
      .bind (level.block t3 rfl) fun body hbody => .node (fun _ i => by grind) fun _ _ => ?_
    exact laid known_nil hx hs hbody (t1.le.trans t2.le) le
  · obtain _ | ⟨t1, _ | ⟨t2, _ | ⟨t3, le | _⟩⟩⟩ := row
    refine .bind (buildReceiver_assembles forget t1.weaken) fun r hr => .bind (buildIdent_assembles t2) fun x hx =>
      .bind (level.signature t3 rfl) fun s hs => .node (fun _ i => by grind) fun _ _ => ?_
    exact laid hr hx hs noBody (t1.le.trans (t2.le.trans t3.le)) le
  · obtain _ | ⟨t1, row1⟩ := row
    obtain _ | ⟨t2, _ | ⟨t3, _ | ⟨t4, le | _⟩⟩⟩ := row1
    refine .bind (buildReceiver_assembles forget t1.weaken) fun r hr => .bind (buildIdent_assembles t2) fun x hx =>
      .bind (level.signature t3 rfl) fun s hs => .bind (level.block t4 rfl) fun body hbody =>
        .node (fun _ i => by grind) fun _ _ => ?_
    exact laid hr hx hs hbody (t1.le.trans (t2.le.trans t3.le)) le

/-- The parts of a file whose declarations lie in these bounds. -/
structure FileParts.Laid (P : Name → Prop) (size lo hi : Nat) (p : FileParts) : Prop where
  package : ∀ x ∈ p.package, Known P x.spelled ∧ x.info.span.Between 0 size
  imports : ∀ i ∈ p.imports, Known P i.term.spelled
  decls : TermsLaid P lo hi (p.decls.map TopDecl.term)

theorem FileParts.Laid.decl (h : p.Laid P size lo mid) {d : TopDecl} (laid : d.term.Laid P mid hi) :
    { p with decls := p.decls ++ [d] }.Laid P size lo hi where
  package := h.package
  imports := h.imports
  decls := by
    rw [map_append]
    exact h.decls.append (.cons laid (.nil .refl))

/-- The rules of what stands at the top level of a file. -/
def Rule.isTop : Rule → Bool
  | .packageClause | .importDecl | .funcDecl | .typeDecl | .varDecl | .constDecl => true
  | _ => false

include forget in
theorem buildTop_assembles (h : (Tree.node rule start text children).Stands P size (k + 1) mid hi)
    (top : rule.isTop = true) (hp : p.Laid P size lo mid) :
    AssemblesFrom size (fun i => p.count i) FileParts.count (FileParts.Laid P size lo hi)
      (buildTop p (.node rule start text children)) := by
  have level := assembly forget size (k + 1)
  have decls : TermsLaid P lo hi (p.decls.map TopDecl.term) := hp.decls.mono .refl h.le
  cases rule <;> try cases top
  case packageClause =>
    obtain _ | ⟨t1, le | _⟩ := (h.row [.ident] rfl)
    refine .bind (c := Ident.count) (Q := fun x => Known P x.spelled ∧ x.info.span.Between 0 size) ?_ fun x hx =>
      .pure ⟨fun y hy => Option.mem_some_iff.mp hy ▸ hx, hp.imports, decls⟩ fun i => by grind
    refine .node (fun _ i => by grind) fun i hi => ⟨?_, hi ▸ t1.weaken.between⟩
    simpa [Ident.spelled, Tree.word, Tree.text, hi, Tree.span, Tree.start] using t1.ident.1
  case importDecl =>
    obtain ⟨rs, all, row⟩ := h.each (· == .importSpec) rfl (by decide)
    refine .bind (assembles_each (d := fun i is => countAll i (is.map Import.term))
      (Q := fun _ _ i => Known P i.term.spelled) (f := (·.mapM buildImport)) rfl (fun _ _ => mapM_cons)
      (fun _ => rfl) (fun _ _ _ => rfl) row fun {_ _ t} hr ht => ?_) fun is his =>
      .pure ⟨hp.package, ?_, decls⟩ fun i => by grind
    · have spec := all _ hr
      obtain ⟨_, _, _, _⟩ := t
      obtain rfl := eq_of_beq spec
      exact buildImport_assembles ht.weaken
    · exact forall_mem_append.mpr ⟨hp.imports, his.forall⟩
  case funcDecl => exact .bind (buildFunc_assembles forget h) fun _ hf => .pure (hp.decl hf) fun i => by grind
  case typeDecl | varDecl | constDecl =>
    exact .bind (level.decl h rfl) fun _ hd => .pure (hp.decl hd) fun i => by grind

include forget in
theorem buildTops_assembles (row : Row (Tree.Stands P size k) mid hi rs ts) (all : ∀ r ∈ rs, r.isTop = true)
    (hp : p.Laid P size lo mid) : AssemblesFrom size (fun i => p.count i) FileParts.count (FileParts.Laid P size lo hi)
      (ts.foldlM buildTop p) := by
  induction row generalizing p with
  | nil le => exact .pure ⟨hp.package, hp.imports, hp.decls.mono .refl le⟩ fun i => .refl
  | cons ht _ ih =>
    obtain ⟨top, others⟩ := forall_mem_cons.mp all
    rw [foldlM_cons]
    exact .andThen (buildTop_assembles forget ht.weaken top hp) fun _ hq => ih others hq

/-- A file whose parts lie in a text of this size, in its order. -/
structure File.Laid (P : Name → Prop) (size : Nat) (f : File) : Prop where
  package : f.package.info.span.Between 0 size
  term : f.term.Laid P 0 size

include forget in
/-- **Files are assembled.** What is built from a match of the file rule lies in the text, in its
order, and building it fails only with a message for the user. -/
theorem buildFile_assembles (h : (Tree.node .file start text children).Stands P size (k + 1) 0 size) :
    Assembles size (fun i f => f.term.count i) (File.Laid P size) (buildFile (.node .file start text children)) := by
  obtain ⟨rs, all, row⟩ := h.each Rule.isTop rfl (by decide)
  have none : ({} : FileParts).Laid P size 0 start := ⟨nofun, nofun, .nil (Nat.zero_le _)⟩
  refine .andThen ((buildTops_assembles forget row all none).mono (fun i => ?_) fun _ => id) fun p hp => ?_
  · simp [FileParts.count, countIdent?, countAll]
  have imports : Known P (spelledAll (p.imports.map Import.term)) := by
    have known := hp.imports
    generalize p.imports = is at known
    induction is with
    | nil => exact known_nil
    | cons i is ih =>
      obtain ⟨first, rest⟩ := forall_mem_cons.mp known
      exact (known_append ..).mpr ⟨first, ih rest⟩
  split
  · rename_i package hpackage
    obtain ⟨known, between⟩ := hp.package _ hpackage
    refine .pure ⟨between, .group known_nil (.cons (Ident.laid known .refl) (.cons
      (.fixed .refl imports) (.cons (.group known_nil hp.decls) (.nil .refl))))⟩ fun i => ?_
    simp only [File.term, FileParts.count, hpackage, countIdent?, Term.count, countAll, countInfo?, Ident.count_term]
    omega
  · exact .fail ⟨h.between, .inl rfl, rfl⟩

end Files

/-! ## Matches -/

section Reading

variable {text : String}

/-- A match knows nothing of its identifiers. -/
def Steady.trivial : Steady where
  Holds _ := True
  Lost _ := False
  Knows _ := True
  gaps _ := ⟨True.intro, id⟩
  operator _ _ _ := ⟨True.intro, id⟩
  token _ _ _ := ⟨True.intro, id⟩
  ident _ _ _ := ⟨True.intro, True.intro⟩

/-- What is matched or refused lies in the text. -/
theorem matchInput_fits : (∀ {fault : Fault}, matchInput rule text = .error fault →
      fault.span.Between 0 (byteLength text.toList)) ∧
    ∀ {ts : List Tree}, matchInput rule text = .ok ts → TreesFit 0 (byteLength text.toList) ts := by
  have start : (⟨0, text.toList⟩ : Cursor).Stands (byteLength text.toList) := Nat.zero_add _
  have whole := matchRule_fits (nestingBound text.toList) false rule ⟨0, text.toList⟩ {} start (Nat.zero_le _)
  simp only [matchInput]
  split
  · rename_i matched
    rw [matched] at whole
    obtain ⟨⟨read, moves, -⟩, fits, -⟩ := whole
    constructor <;> rintro _ ⟨⟩
    exact fits.mono .refl (moves.stands start).le
  · rename_i failed
    rw [failed] at whole
    constructor <;> rintro _ ⟨⟩
    exact ⟨Nat.zero_le _, .refl, whole⟩

/-- A match of a rule that leaves trees leaves one of that rule. -/
theorem matchTree_yields (silent : rule.isSilent = false) (text : String) :
    Yields (matchInput rule text = .error ·) (fun t => t.rule = rule ∧
      t.Stands (fun _ => True) (byteLength text.toList) (sizeOf t + 1) 0 (byteLength text.toList))
      (matchTree rule text) := by
  unfold matchTree
  have spells {ts : List Tree} (h : matchInput rule text = .ok ts) :
      ts.map Tree.rule = [rule] ∧ TreesBear (fun _ => True) ts := by
    simp only [matchInput] at h
    split at h
    · rename_i hmatched
      cases h
      have leaves := Steady.trivial.matches_matchRule _ True.intro hmatched
      exact ⟨Eq.trans leaves.spells (if_neg (by simp [silent])), leaves.bears id⟩
    · cases h
  split
  · rename_i hfault
    exact .fail hfault
  · rename_i t ts hmatch
    obtain ⟨rules, bears⟩ := spells hmatch
    obtain ⟨rfl, -⟩ := List.cons.inj rules
    obtain ⟨mid, fits, rest⟩ := (matchInput_fits.2 hmatch).head
    exact .pure ⟨rfl, Nat.lt_succ_self _, fits.mono .refl rest.le, bears.head.1, .refl⟩
  · rename_i hmatch
    cases (spells hmatch).1

/-- A file that is read from a match of the whole text. -/
theorem matchFile_yields (text : String) :
    Yields (fun e => matchInput .file text = .error e ∨ e.Reported (byteLength text.toList))
      (File.Laid (fun _ => True) (byteLength text.toList)) (matchTree .file text >>= buildFile) := by
  refine .bind ((matchTree_yields rfl text).mono (fun _ => .inl) fun _ => id) fun t ⟨hrule, ht⟩ => ?_
  obtain ⟨_, _, _, _⟩ := t
  obtain rfl := hrule
  exact (buildFile_assembles (fun _ _ _ => trivial) ht).yields.mono (fun _ => .inr) fun _ => id

/-- Whatever is read from a text is new. -/
theorem parseFile_builds (text : String) : BuildsAll (fun i (f : File) => f.term.count i) (parseFile text) := by
  unfold parseFile
  split
  · exact .fail
  · rename_i laid _
    have drawn : BuildsAll (fun _ _ => 0) (matchTree .file laid) := by
      unfold matchTree
      split
      · exact .fail
      · exact .pure fun i => .refl
      · exact .fail
    intro n f n' h i
    obtain ⟨t, n1, hmatch, hbuild⟩ := Builds.bind_ok h
    obtain ⟨hrule, ht⟩ := (matchTree_yields rfl laid).ensures hmatch
    obtain ⟨_, _, _, _⟩ := t
    obtain rfl := hrule
    have h1 : 0 + spare n1 i ≤ 0 + spare n i := drawn hmatch i
    have h2 := (buildFile_assembles (fun _ _ _ => trivial) ht).builds hbuild i
    dsimp only at h2 ⊢
    omega

theorem parseFile_distinct {text : String} {n n' : NodeId} {tree : File}
    (h : parseFile text n = .ok (tree, n')) (i : NodeId) : tree.term.count i ≤ 1 := by
  have : tree.term.count i + spare n' i ≤ 0 + spare n i := parseFile_builds text h i
  have := spare_le_one n i
  omega

section Packages

variable {input : SourceInput} {next next' : NodeId} {expected : Option String} {inputs : List SourceInput}
  {files : List SourceFile}

theorem readSource_builds {file : SourceFile} (h : readSource next input = .ok (file, next')) (i : NodeId) :
    file.tree.term.count i + spare next' i ≤ spare next i := by
  obtain ⟨_, tree, -, hparse, rfl⟩ := readSource_ok h
  have := parseFile_builds _ hparse i
  rwa [Nat.zero_add] at this

theorem readSources_builds (h : readSources expected next inputs = .ok (files, next')) (i : NodeId) :
    countFiles i files + spare next' i ≤ spare next i := by
  induction inputs generalizing expected next files with
  | nil =>
    cases h
    simp [countFiles]
  | cons input inputs ih =>
    obtain ⟨file, next1, _, files', hfile, hrest, rfl⟩ := readSources_cons h
    have h1 := readSource_builds hfile i
    have h2 := ih hrest
    simp only [countFiles] at h2 ⊢
    omega

/-- No two nodes of a package have the same identity, and the counter is above
all of them. -/
theorem assemble_distinct {p : Package} (h : Package.assemble inputs = .ok p) (i : NodeId) :
    countFiles i p.files + spare p.nextId i ≤ 1 := by
  exact Nat.le_trans (readSources_builds (assemble_files h) i) (spare_le_one 0 i)

end Packages

/-- A type that is read from a match of the whole text. -/
theorem parseType_yields (text : String) :
    Yields (fun e => matchInput .typeOnly text = .error e ∨ e.Reported (byteLength text.toList))
      (fun _ => True) (parseType text) := by
  refine .bind ((matchTree_yields rfl text).mono (fun _ => .inl) fun _ => id) fun t ⟨hrule, ht⟩ => ?_
  obtain ⟨_, _, _, _⟩ := t
  obtain rfl := hrule
  have level := assembly (P := fun _ => True) (fun _ _ _ => trivial)
  exact (buildType_assembles (level _ _) ht rfl).yields.mono (fun _ => .inr) fun _ _ => trivial

/-- **Statements are in the order of the text.** The statements of a file that is read, each before
those inside it, start one after the other. -/
theorem parseFile_inOrder (text : String) :
    Ensures (fun f : File => ∃ hi, Ascends 0 hi (starts [f.term])) (parseFile text) := by
  unfold parseFile
  split
  · exact .fail
  · exact (matchFile_yields _).ensures.mono fun _ hf => ⟨_, hf.term.ascends⟩

/-- What is known of the identifiers of a match is known of the names of the file that is built
from it. -/
theorem matchFile_known {P : Name → Prop} (forget : ∀ x o, P (x, some o) → P (x, none)) {text : String}
    (bears : Ensures (Tree.Bears P) (matchTree .file text)) :
    Ensures (fun f => Known P f.spelled) (matchTree .file text >>= buildFile) := by
  have both : Ensures (fun t => t.Bears P ∧ t.rule = .file ∧
      t.Stands (fun _ => True) (byteLength text.toList) (sizeOf t + 1) 0 (byteLength text.toList))
      (matchTree .file text) :=
    fun _ _ _ h => ⟨bears h, (matchTree_yields rfl text).ensures h⟩
  refine both.bind fun t ⟨ht, hrule, stands⟩ => ?_
  obtain ⟨_, _, _, _⟩ := t
  obtain rfl := hrule
  have whole := buildFile_assembles forget ⟨stands.small, stands.fits, ht, stands.upper⟩
  exact whole.yields.ensures.mono fun _ hf => hf.term.known

end Reading

end CheckHandle
