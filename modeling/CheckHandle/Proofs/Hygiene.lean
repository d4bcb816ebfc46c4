import CheckHandle.Proofs.Enclosing
import CheckHandle.Proofs.Frame
import CheckHandle.Proofs.Rescoping
import CheckHandle.Proofs.Shortened

/-!
# Names in copies of handlers

The guard of a check holds a copy of each handler of its chain, one after the
other in one block. A name in a copy is resolved there, and nothing is renamed
but the error. It keeps its declaration unless a copy before declares the name as
well, or the name means something else at the guard than at the handler.
-/

namespace CheckHandle

open List

variable {ss : List Statement} {m : Nat} {copy : List Stmt} {v : View}

variable {x errVar : String} {r : Option NodeId} {ds : List Declaration} {d : NodeId}

attribute [local simp] countAll

/-! ## Handlers of a chain -/

variable {N : Statement → Nat → Prop} {j : Nat} {handlers : List Handler} {chain : List Nat}
  {out out' c : Collected} {i : NodeId} {b : CheckBinding} {copies : List (List Stmt)}

theorem HandlersOf.exists_of_mem {before : List Statement} {js : List Nat}
    (h : HandlersOf N before js) (hj : j ∈ js) : ∃ t, N t j := by
  induction h with
  | nil => cases hj
  | @handler before js t j' _ ht ih =>
    rcases mem_cons.mp hj with rfl | hj
    · exact ⟨t, ht⟩
    · exact ih hj
  | other _ _ ih => exact ih hj

theorem exists_of_mem_chains {levels : List Level} {chains : List (List Nat)}
    (h : List.Forall₂ (fun level js => HandlersOf N level.before js) levels chains)
    (hj : j ∈ chains.flatten) : ∃ t, N t j := by
  induction h with
  | nil => cases hj
  | cons hjs _ ih =>
    rw [flatten_cons, mem_append] at hj
    exact hj.elim hjs.exists_of_mem ih

/-- The handlers of these numbers were statements among `ss`. -/
def AreHandlersOf (handlers : List Handler) (ss : List Statement) (chain : List Nat) : Prop :=
  ∀ j ∈ chain, ∃ (h : Handler) (t : Stmt), handlers[j]? = some h ∧ t.statement ∈ ss ∧ handlerBody? t = some h.body

theorem AreHandlersOf.append {handlers' new : List Handler} (h : AreHandlersOf handlers ss chain)
    (more : handlers' = handlers ++ new) : AreHandlersOf handlers' ss chain := by
  intro j hj
  obtain ⟨handler, t, hhandler, ht⟩ := h j hj
  refine ⟨handler, t, ?_, ht⟩
  rw [more, getElem?_append_left (List.getElem?_eq_some_iff.mp hhandler).1]
  exact hhandler

/-- The handlers of a check stand in its file. -/
theorem collectFile_chain {markers : Markers} {file : Nat} {tree tree' : File}
    (h : collectFile markers file tree out = .ok (tree', out'))
    (distinct : ∀ i, tree.term.count i ≤ 1) :
    (∃ new, out'.handlers = out.handlers ++ new) ∧ ∀ {i b}, out'.checks.get? i = some b →
      out.checks.get? i = some b ∨ b.file = file ∧ AreHandlersOf out'.handlers (standing [tree.term]) b.chain := by
  obtain ⟨R, -, ⟨new, handlers, taken_from⟩, bound, -⟩ := collectFile_ok h distinct
  obtain ⟨s', hwalk, -, rfl⟩ := collectFile_walk h
  obtain ⟨taken, situated⟩ := (traverses_situated markers file).inFile tree hwalk fun i => by
    simpa using distinct i
  obtain ⟨new', handlers', turns⟩ := situated.handlers
  obtain rfl : new' = new := append_cancel_left (handlers'.symm.trans handlers)
  have numbers : Numbers (countAll · [tree.term]) _ _ _ _ _ := numbers_start out taken (functionsAll [tree'.term])
  refine ⟨⟨new', handlers⟩, fun {i b} hb => ?_⟩
  rcases bound hb with old | ⟨-, hfile, -⟩
  · exact .inl old
  rcases situated.news numbers (show Agrees _ _ _ [] from rfl) i b hb with old |
    ⟨_, -, _, _, _, _, -, -, -, -, -, ⟨chains, hchains, hchain⟩, -⟩
  · exact .inl old
  refine .inr ⟨hfile, fun j hj => ?_⟩
  rw [hchain] at hj
  obtain ⟨_, k, t, hk, -, rfl⟩ := exists_of_mem_chains hchains hj
  obtain ⟨handler, hnew, -⟩ := exists_getElem?_of_forall₂ turns hk
  obtain ⟨_, -, t', ht', -, hbody⟩ := taken_from handler (mem_of_getElem? hnew)
  refine ⟨handler, t', ?_, ht', hbody⟩
  rw [handlers, getElem?_append_right (Nat.le_add_right _ _), Nat.add_sub_cancel_left]
  exact hnew

/-- The handlers of the chain of a check stand in the file of the check. -/
theorem collect_chain {p q : Package} (collected : p.collect = .ok (q, c))
    (distinct : ∀ i, countFiles i p.files ≤ 1) {k : Nat} {f : SourceFile}
    (hf : p.files[k]? = some f) (check : c.Pending k i b) :
    AreHandlersOf c.handlers (standing [f.tree.term]) b.chain := by
  obtain ⟨_, -, hf', -, chain⟩ := collect_each (·.handlers)
    (fun c f _ b => AreHandlersOf c.handlers (standing [f.term]) b.chain) .append collectFile_chain collected distinct check
  cases hf.symm.trans hf'
  exact chain

/-! ## The block of a conditional -/

/-- A conditional without a header and without another branch. -/
theorem meanings_cond {info inner : Info} {test : Expr} {ss : List Stmt} (v : View) :
    meaningsIn x v [(Stmt.cond info none test ⟨inner, ss⟩ none).statement]
      = (.stmt info.id v.decl :: (test.term false).meanings x v.enter none)
        ++ meaningsIn x ⟨v.decl, false⟩ (statements ss) := by
  simp [Stmt.statement, Stmt.kind, Stmt.info, Stmt.parts, meaningsIn, meaningsAll, Kind.plan, stmtTerm?, Term.absent, Term.named?, Term.meanings, Term.declared, useMeaning, Plan.next_nil, Kind.exports, Block.term, View.enter, Expr.term]

theorem handlerBody?_eq {t : Stmt} {body : Block} (h : handlerBody? t = some body) :
    ∃ info test, t = .cond info none test body none := by
  unfold handlerBody? at h
  split at h
  · split at h
    · cases h
      exact ⟨_, _, rfl⟩
    · cases h
  · cases h

/-! ## Guards -/

/-- The guard tests the error in `errVar`. Its body has copies of the handlers of
the chain, and then a default; what cannot be reached is cut off. -/
def HandlesBy (handlers : List Handler) (chain : List Nat) (errVar : String) (copies : List (List Stmt))
    (whole guard : Stmt) : Prop :=
  guard = whole.trim ∧ (∃ cond test err nil block default, whole = .cond cond none
      (.binary test .ne (.ident err errVar) (.ident nil "nil")) ⟨block, copies.flatten ++ [default]⟩ none) ∧
    List.Forall₂ (fun j copy => ∃ h, handlers[j]? = some h ∧ h.Copies errVar copy) chain copies

theorem forall₂_of_filterMap {R : Handler → List Stmt → Prop} (chained : ∀ j ∈ chain, ∃ h, handlers[j]? = some h)
    (h : List.Forall₂ R (chain.filterMap fun j => handlers[j]?) copies) :
    List.Forall₂ (fun j copy => ∃ h, handlers[j]? = some h ∧ R h copy) chain copies := by
  induction chain generalizing copies with
  | nil =>
    cases h
    exact .nil
  | cons j chain ih =>
    obtain ⟨handler, hhandler⟩ := chained j mem_cons_self
    rw [filterMap_cons, hhandler] at h
    cases h with
    | cons first rest =>
      exact .cons ⟨handler, hhandler, first⟩ (ih (fun j hj => chained j (mem_cons_of_mem _ hj)) rest)

/-- The guard of a check handles the error by its chain, with nodes that come
after those of the names of the results. -/
theorem checkPrelude_handles {info : TypeInfo} {values : List String} {operand : Expr} {n n' : NodeId} {e : Expanded}
    (h : checkPrelude info c b values errVar operand n = (e.prelude operand, n'))
    (chained : ∀ j ∈ b.chain, ∃ h, c.handlers[j]? = some h) :
    ∃ copies whole, HandlesBy c.handlers b.chain errVar copies whole e.guard ∧ (∀ i, whole.count i ≤ 1) ∧
      ∃ j, 0 < countExprs j e.names ∧ ∀ i, 0 < whole.count i → j < i := by
  obtain ⟨names, define, cond, test, err, nil, block, copies, default, n1, _, _, _, _, prelude, hnames, -, hcopies,
    drawn⟩ := checkPrelude_spec info c b values errVar n
  have same := (Prod.mk.inj (h.symm.trans (prelude operand))).1
  simp only [Expanded.prelude, List.cons.injEq, Stmt.assign.injEq] at same
  obtain ⟨⟨-, rfl, -⟩, hguard, -⟩ := same
  have idents := mapM_fresh_ident? hnames
  have count : ∀ i, countExprs i e.names + spare n1 i ≤ 0 + spare n i := fun i => mapM_draws Expr.fresh_draws _ hnames i
  refine ⟨copies, _, ⟨?_, ⟨cond, test, err, nil, block, default, rfl⟩, ?_⟩, fun i => ?_, ?_⟩
  · rw [hguard, Stmt.trim]
  · exact forall₂_of_filterMap chained (mapM_copies hcopies)
  · have := drawn i
    have := spare_le_one n1 i
    omega
  · obtain ⟨y, ys, hy⟩ : ∃ y ys, e.names = y :: ys := by
      rcases hy : e.names with _ | ⟨y, ys⟩
      · rw [hy] at idents
        simp at idents
      · exact ⟨y, ys, rfl⟩
    obtain ⟨name, -, hname⟩ : ∃ name ∈ values ++ [errVar], some name = y.ident? := by
      refine mem_map.mp ?_
      rw [← idents, hy]
      exact mem_cons_self
    obtain ⟨own, rfl⟩ := Expr.ident?_eq_some hname.symm
    have occurs : 0 < countExprs own.id e.names := by
      rw [hy, countExprs, Expr.count]
      have := own.count_self_pos
      omega
    refine ⟨own.id, occurs, fun i hi => ?_⟩
    have before : spare n1 own.id = 0 := by
      have := count own.id
      have := spare_le_one n own.id
      omega
    have after : 0 < spare n1 i := by
      have := drawn i
      omega
    have lt : own.id < n1 := Nat.not_le.mp fun hle => by
      rw [spare, if_pos hle] at before
      cases before
    have le : n1 ≤ i := Nat.not_lt.mp fun hlt => by
      rw [spare_eq_zero hlt] at after
      cases after
    exact lt.trans_le le

theorem flatten_split (h : copies[m]? = some copy) (rest : List Stmt) : copies.flatten ++ rest
      = (copies.take m).flatten ++ (copy ++ ((copies.drop (m + 1)).flatten ++ rest)) := by
  obtain ⟨hm, rfl⟩ := List.getElem?_eq_some_iff.mp h
  have parted := congrArg flatten (take_append_drop m copies)
  rw [drop_eq_getElem_cons hm, flatten_append, flatten_cons] at parted
  rw [← parted, append_assoc, append_assoc]

/-- The declarations of `x` that are seen at the top of the copy number `m`. -/
def declaredBefore (x : String) (copies : List (List Stmt)) (m : Nat) : List Declaration :=
  declaredIn x (statements (copies.take m).flatten)

section Guard

variable {whole guard : Stmt}

theorem HandlesBy.within (h : HandlesBy handlers chain errVar copies whole guard) :
    WithinStatements x [guard.statement] [whole.statement] := by
  obtain ⟨rfl, -, -⟩ := h
  show WithinStatements x [.mk whole.trim.kind whole.trim.info whole.trim.parts] _
  rw [whole.kind_trim, whole.info_trim]
  exact ((whole.trim_within x).statement whole.kind whole.info).2

/-- What is in a copy is not in the copies before. -/
theorem HandlesBy.count_le (h : HandlesBy handlers chain errVar copies whole guard) (hcopy : copies[m]? = some copy)
    (i : NodeId) : countStmts i (copies.take m).flatten + countStmts i copy ≤ whole.count i := by
  obtain ⟨-, ⟨cond, test, err, nil, block, default, rfl⟩, -⟩ := h
  simp only [Stmt.count, Block.count, flatten_split hcopy [default], countStmts_append]
  omega

/-- A use in a copy is resolved after what the copies before declare. -/
theorem HandlesBy.use_in_copy (h : HandlesBy handlers chain errVar copies whole guard) (once : ∀ i, whole.count i ≤ 1)
    (hcopy : copies[m]? = some copy) {u : NodeId}
    (hu : .use u r ∈ meaningsIn x v [guard.statement]) (inside : 0 < countStmts u copy) :
    .use u r ∈ meaningsIn x ((⟨v.decl, false⟩ : View).after (declaredBefore x copies m)) (statements copy) := by
  have hwhole := h.within v hu
  obtain ⟨-, ⟨cond, test, err, nil, block, default, rfl⟩, -⟩ := h
  have split := flatten_split hcopy [default]
  have once := once u
  rw [meanings_cond, split] at hwhole
  simp only [Stmt.count, Block.count, split, countStmts_append] at once
  rw [cons_append, mem_cons, mem_append] at hwhole
  rcases hwhole with hstmt | htest | hbody
  · cases hstmt
  · have := Term.meanings_node htest
    rw [Expr.term, Term.count, Expr.count_parts] at this
    simp only [Meaning.node] at this
    omega
  · rw [statements_append, statements_append, meaningsIn_append, meaningsIn_append] at hbody
    simp only [mem_append] at hbody
    rcases hbody with hbefore | hhere | hafter
    · have : 0 < countIn u _ := meaningsIn_node hbefore
      rw [countIn_stmts u (copies.take m).flatten] at this
      omega
    · exact hhere
    · have : 0 < countIn u _ := meaningsIn_node hafter
      rw [countIn_stmts u ((copies.drop (m + 1)).flatten ++ [default]), countStmts_append] at this
      omega

end Guard

/-! ## One copy -/

/-- The declaration `r`, or its copy if it stands among `ss`. -/
def carriedOver (φ : NodeId → NodeId) (ss : List Statement) (r : Option NodeId) : Option NodeId :=
  r.map fun d => if 0 < countIn d ss then φ d else d

/-- In a copy of `ss`, a use of `x` that means `r` keeps its declaration: the
copies before declare `ds`, and the name means `rg` at the guard. -/
def KeptIn (x : String) (ss : List Statement) (ds : List Declaration) (rg r : Option NodeId) : Prop :=
  (∃ d, r = some d ∧ 0 < countIn d ss ∧ (ds = [] ∨ (declaredIn x ss).head? ≠ some ⟨true, d⟩)) ∨
    (∀ d, r = some d → countIn d ss = 0) ∧ ds = [] ∧ rg = r

theorem View.declare_inner (h : v.inner = true) (d : Declaration) : (v.declare d).inner = true := by
  unfold View.declare
  split
  · exact h
  · rfl

theorem View.after_inner (h : v.inner = true) (ds : List Declaration) : (v.after ds).inner = true := by
  induction ds generalizing v with
  | nil => exact h
  | cons d ds ih => exact ih (View.declare_inner h d)

/-- In a new scope, the name means one of its declarations, if there are any. -/
theorem View.after_new (r : Option NodeId) (h : ds ≠ []) :
    ((⟨r, false⟩ : View).after ds).inner = true ∧ ∃ d ∈ ds, ((⟨r, false⟩ : View).after ds).decl = some d.id := by
  cases ds with
  | nil => exact absurd rfl h
  | cons d ds =>
    have first : (⟨r, false⟩ : View).after (d :: ds) = (⟨some d.id, true⟩ : View).after ds := by
      show ((⟨r, false⟩ : View).declare d).after ds = _
      rw [View.declare, Bool.and_false, if_neg Bool.false_ne_true]
    rw [first]
    refine ⟨View.after_inner rfl ds, ?_⟩
    rcases View.after_decl ⟨some d.id, true⟩ ds with same | ⟨e, he, hdecl⟩
    · exact ⟨d, mem_cons_self, same⟩
    · exact ⟨e, mem_cons_of_mem _ he, hdecl⟩

/-- What a name means in a file is a node of the file. -/
theorem File.meanings_decl {f : File} {m : Meaning} (hm : m ∈ f.meanings x)
    (hd : m.decl = some d) : 0 < f.term.count d := by
  have whole : m ∈ meaningsAll x ⟨⟨none, false⟩, false, none, false⟩ [f.term] := by
    simpa [meaningsAll, File.meanings] using hm
  rcases meaningsAll_decl rfl whole with outside | ⟨e, he, pos⟩
  · rw [hd] at outside
    cases outside
  · rw [hd] at he
    cases he
    simpa using pos

section Copy

variable {f : File} {t : Stmt} {body : Block} {φ : NodeId → NodeId} {g : String → String}

theorem countIn_block_le (i : NodeId) (b : Block) : countIn i (statements b.stmts) ≤ b.count i := by
  obtain ⟨info, ss⟩ := b
  rw [countIn_stmts i ss, Block.count]
  exact Nat.le_add_left _ _

theorem count_body_le (hbody : handlerBody? t = some body) (i : NodeId) :
    body.count i ≤ countIn i [t.statement] := by
  obtain ⟨info, test, rfl⟩ := handlerBody?_eq hbody
  simp only [Stmt.statement, Stmt.parts, countIn, countAll, Block.count_term]
  omega

theorem count_body_le_file (ht : t.statement ∈ standing [f.term]) (hbody : handlerBody? t = some body)
    (i : NodeId) : body.count i ≤ f.term.count i := by
  have : countIn i [t.statement] ≤ countAll i [f.term] := countIn_le_of_standing ht
  have := count_body_le hbody i
  simp only [countAll] at *
  omega

/-- The body of a handler is seen from where the handler stands. -/
theorem exists_handler_view (once : ∀ i, f.term.count i ≤ 1) (ht : t.statement ∈ standing [f.term])
    (hbody : handlerBody? t = some body) :
    ∃ r, meaningsIn x ⟨r, false⟩ (statements body.stmts) ⊆ f.meanings x ∧
      ∀ d, r = some d → countIn d (statements body.stmts) = 0 := by
  obtain ⟨w, seen⟩ := File.seenFrom (x := x) once ht
  refine ⟨w.decl, fun m hm => seen.subset ?_, fun d hd => ?_⟩
  · obtain ⟨info, test, rfl⟩ := handlerBody?_eq hbody
    obtain ⟨inner, ss⟩ := body
    rw [meanings_cond]
    exact mem_append_right _ hm
  · have : countIn d [t.statement] = 0 := seen.foreign d hd
    have := count_body_le hbody d
    have := countIn_block_le d body
    omega

theorem carriedOver_of_foreign (foreign : ∀ d, r = some d → countIn d ss = 0) : carriedOver φ ss r = r := by
  cases r with
  | none => rfl
  | some d =>
    refine congrArg some (if_neg ?_)
    rw [foreign d rfl]
    exact Nat.lt_irrefl 0

theorem carriedOver_of_inside (inside : 0 < countIn d ss) :
    carriedOver φ ss (some d) = some (φ d) :=
  congrArg some (if_pos inside)

/-- How a use `u'` of `x` in a copy of `ss` is resolved: it is the copy of a use in
the file `f`, or of what a short definition declares unless the copies before
have declared it. -/
def UseResolved (x : String) (f : File) (ss : List Statement) (φ : NodeId → NodeId) (ds : List Declaration)
    (rg : Option NodeId) (u' : NodeId) (r' : Option NodeId) : Prop :=
  ∃ u, u' = φ u ∧ ((∃ r, .use u r ∈ f.meanings x ∧ 0 < countIn u ss ∧
        (r' = carriedOver φ ss r ↔ KeptIn x ss ds rg r)) ∨
      ⟨true, u⟩ ∈ declaredIn x ss ∧ ∃ d ∈ ds, r' = some d.id)

/-- A use in a copy of a handler keeps its declaration only if the copies before
leave it alone and the name means the same at the guard. -/
theorem use_in_copy_resolved (once : ∀ i, f.term.count i ≤ 1) (ht : t.statement ∈ standing [f.term])
    (hbody : handlerBody? t = some body) (copied : CopiedBy φ g (statements body.stmts) (statements copy))
    (keeps : ∀ y, g y = x ↔ y = x) {rg : Option NodeId}
    (fresh : ∀ d ∈ ds, f.term.count d.id = 0) (apart : ∀ d ∈ ds, countIn d.id (statements copy) = 0)
    {u' : NodeId} {r' : Option NodeId}
    (hu : .use u' r' ∈ meaningsIn x ((⟨rg, false⟩ : View).after ds) (statements copy)) :
    UseResolved x f (statements body.stmts) φ ds rg u' r' := by
  obtain ⟨rh, subset, foreign⟩ := exists_handler_view (x := x) once ht hbody
  have onceIn : ∀ i, countIn i (statements body.stmts) ≤ 1 := fun i =>
    Nat.le_trans (countIn_block_le i body) (Nat.le_trans (count_body_le_file ht hbody i) (once i))
  obtain ⟨u, rfl, ⟨r, hr, rfl⟩ | ⟨inner, declares, rfl⟩⟩ := copied.use_resolved keeps onceIn foreign hu
  · refine ⟨u, rfl, .inl ⟨r, subset hr, meaningsIn_node hr, ?_⟩⟩
    rcases meaningsIn_decl hr with outside | ⟨d, hd, inside⟩
    · -- declared outside the handler
      cases outside
      rw [inCopy_of_foreign foreign, carriedOver_of_foreign foreign]
      by_cases declared : ds = []
      · subst declared
        constructor
        · exact fun same => .inr ⟨foreign, rfl, same⟩
        · rintro (⟨d, hd, inside, -⟩ | ⟨-, -, same⟩)
          · have := foreign d hd
            omega
          · exact same
      · obtain ⟨-, d, hd, hdecl⟩ := View.after_new rg declared
        rw [hdecl]
        constructor
        · intro same
          have := File.meanings_decl (subset hr) same.symm
          have := fresh d hd
          omega
        · rintro (⟨d, hd, inside, -⟩ | ⟨-, none, -⟩)
          · have := foreign d hd
            omega
          · exact absurd none declared
    · -- declared in the handler
      cases hd
      rw [carriedOver_of_inside inside, inCopy]
      by_cases first : (declaredIn x (statements body.stmts)).head? = some ⟨true, d⟩
      · by_cases declared : ds = []
        · subst declared
          rw [if_pos ⟨inside, fun captured => Bool.false_ne_true captured.1⟩]
          exact iff_of_true rfl (.inl ⟨d, rfl, inside, .inl rfl⟩)
        · obtain ⟨inner, e, he, hdecl⟩ := View.after_new rg declared
          rw [if_neg fun kept => kept.2 ⟨inner, first⟩, hdecl]
          have copied_first : ⟨true, φ d⟩ ∈ declaredIn x (statements copy) := by
            rw [copied.eq_relabel, declaredIn_relabel keeps]
            exact mem_map_of_mem (mem_of_mem_head? first)
          constructor
          · intro same
            have occurs := declaredIn_node copied_first
            have absent := apart e he
            rw [Option.some.inj same] at absent
            exact absurd absent (Nat.ne_of_gt occurs)
          · rintro (⟨d', hd', -, none | other⟩ | ⟨outside, -⟩)
            · exact absurd none declared
            · cases hd'
              exact absurd first other
            · have := outside d rfl
              omega
      · rw [if_pos ⟨inside, fun captured => first captured.2⟩]
        exact iff_of_true rfl (.inl ⟨d, rfl, inside, .inr first⟩)
  · have declared : ds ≠ [] := by
      rintro rfl
      cases inner
    exact ⟨u, rfl, .inr ⟨declares, (View.after_new rg declared).2⟩⟩

end Copy

/-! ## Whole files -/

section Files

variable {p q : Package} {c' : Collected} {k : Nat} {f₀ f₁ f : SourceFile} {l : Ledger}

/-- Without its handlers, a file means what it meant. -/
theorem SourceFile.Freed.meanings_subset (freed : f₀.Freed f₁) (once : ∀ i, f₀.tree.term.count i ≤ 1) :
    f₁.tree.meanings x ⊆ f₀.tree.meanings x := by
  obtain ⟨R, hdrop, removed⟩ := freed.tree
  have distinct : Distinct [f₀.tree.term] := distinct_of_count fun i => by simpa using once i
  have silent : ∀ s ∈ standing [f₀.tree.term], R s.info.id = true → s.declared x = [] := by
    intro s hs hR
    obtain ⟨body, t, ht, hid, hbody⟩ := removed hR
    obtain rfl := distinct.statement ht hs hid
    obtain ⟨info, test, rfl⟩ := handlerBody?_eq hbody
    simp [Statement.declared, Stmt.statement, Stmt.kind, Statement.kind, Kind.exports]
  unfold File.meanings
  rw [hdrop]
  exact (Term.drop_within silent).meanings _ _

variable {e : Expanded}

/-- The guard of an expanded check is a statement of the file. -/
theorem SettledFile.guard_stands (settled : SettledFile c q.nextId k f₁.tree.term f.tree.term c' l)
    (gleaned : Gleaned q c) (hf1 : q.files[k]? = some f₁) (check : c.Pending k i b)
    (he : l i = some e) :
    e.guard.statement ∈ standing [f.tree.term] := by
  obtain ⟨s, hs, -, node, hnode, rfl, -⟩ := gleaned.stands_in hf1 check
  obtain ⟨block, hblock, hs⟩ := mem_flatMap.mp hs
  have every := passesDown_every.of_blocksAll (by
    rw [EveryTerms, EveryTerms]
    exact ⟨settled.every gleaned hf1, trivial⟩) hblock
  refine mem_flatMap.mpr ⟨(block.1, settleIn l block.2), ?_, ?_⟩
  · have := settled.carried block (by simpa [blocksAll] using hblock)
    simpa [blocksAll] using this
  · rw [settleIn_eq_flatMap]
    refine mem_flatMap.mpr ⟨s, hs, ?_⟩
    have inserted := guard_mem_settleAll (everyIn_parts every hs) hnode he
    obtain ⟨kind, info, parts⟩ := s
    rw [Statement.settle, settleIn]
    exact mem_append_left _ (mem_append_left _ inserted)

/-- The guard of an expanded check handles the error by its chain, with new
nodes. -/
theorem SettledFile.handles (settled : SettledFile c q.nextId k f₁.tree.term f.tree.term c' l)
    (user : isReserved x = false) (named : x ≠ "_") (check : c.Pending k i b)
    (chained : ∀ j ∈ b.chain, ∃ h, c.handlers[j]? = some h) (he : l i = some e) :
    ∃ errVar copies whole, errVar ≠ x ∧
      HandlesBy c.handlers b.chain errVar copies whole e.guard ∧ (∀ i, whole.count i ≤ 1) ∧
      ∀ i, 0 < whole.count i → q.nextId ≤ i := by
  obtain ⟨info, _, _, slot, values, errVar, _, _, -, -, made, temporary⟩ := settled.stems he check
  obtain ⟨_, prelude⟩ := made.prelude
  obtain ⟨copies, whole, handles, once, j, hj, after⟩ := checkPrelude_handles (prelude (.ident ⟨0, {}⟩ x)) chained
  refine ⟨errVar, copies, whole, ?_, handles, once, fun i hi => ?_⟩
  · exact temporary.ne user named errVar (mem_append_right _ mem_cons_self)
  · have new : q.nextId ≤ j := settled.made he (by rw [Expanded.count]; omega)
    exact new.trans (Nat.le_of_lt (after i hi))

/-- What a name means at the guard of a check is what it means at the statement
of the check, unless that is left behind. -/
theorem SettledFile.guard_view (settled : SettledFile c q.nextId k f₁.tree.term f.tree.term c' l)
    (gleaned : Gleaned q c) (hf1 : q.files[k]? = some f₁) (once : ∀ i, f.tree.term.count i ≤ 1)
    (user : isReserved x = false) (named : x ≠ "_") (check : c.Pending k i b) (he : l i = some e) :
    ∃ rc rg, .stmt b.stmt rc ∈ f₁.tree.meanings x ∧ .stmt e.guard.info.id rg ∈ f.tree.meanings x ∧
      Shifted (fun d => LeftIn l b.stmt d (standing [f₁.tree.term])) rc rg ∧
      e.guard.statement.SeenFrom x ⟨rg, false⟩ (f.tree.meanings x) := by
  have hides := settled.hides user named
  obtain ⟨s, hs, hstmt, node, hnode, hid, -⟩ := gleaned.stands_in hf1 check
  have outside : ∀ i ∈ f₁.tree.term.own, l i = none := fun i hi =>
    Classical.not_not.mp fun hl => by
      obtain ⟨e, he⟩ := Option.ne_none_iff_exists'.mp hl
      exact (gleaned.marked hf1).outside (settled.keys he) hi
  -- the statement of the check
  obtain ⟨v, seen1⟩ := File.seenFrom (x := x) (gleaned.distinct_file hf1) hs
  have here : .stmt b.stmt v.decl ∈ f₁.tree.meanings x := by
    refine seen1.subset ?_
    rw [← hstmt]
    obtain ⟨kind, info, parts⟩ := s
    rw [meaningsIn]
    exact mem_cons_self
  obtain ⟨rg, subset, shifted⟩ := File.carried hides (settled.every gleaned hf1) (gleaned.distinct_file hf1)
    settled.tree outside here s hs hstmt node hnode e (hid ▸ he)
  -- the guard
  have first : ∀ w, .stmt e.guard.info.id w.decl ∈ meaningsIn x w [e.guard.statement] := fun w => by
    rw [Stmt.statement, meaningsIn]
    exact mem_cons_self
  obtain ⟨w, seen⟩ := File.seenFrom (x := x) once (settled.guard_stands gleaned hf1 check he)
  have same : w.decl = rg := by
    have unique := Term.meaning_unique once (subset (first ⟨rg, false⟩)) (seen.subset (first w)) rfl
    exact Meaning.stmt.inj unique |>.2
  have scope := meaningsIn_cond (x := x) (s := e.guard.statement) (hides.guard he) w
  rw [same] at scope
  refine ⟨v.decl, rg, here, subset (first ⟨rg, false⟩), shifted, subset, fun m hm pos => ?_, fun d hd => ?_⟩
  · rw [← scope]
    exact seen.only m hm pos
  · exact seen.foreign d (same.trans hd)

end Files

variable {inputs : List SourceInput} {p q : Package} {typing : Typing}
  {summary : Summary} {k : Nat} {f₁ f : SourceFile}

/-- After a run that ends well, all checks are settled. -/
theorem exists_settled_of_outcome (assembled : Package.assemble inputs = .ok p)
    (collected : p.collect = .ok (q, c)) (outcome : (p.expand typing).outcome = .ok summary)
    (hf1 : q.files[k]? = some f₁) (hf : (p.expand typing).package.files[k]? = some f) :
    ∃ c' l, SettledFile c q.nextId k f₁.tree.term f.tree.term c' l ∧ (∀ i, f.tree.term.count i ≤ 1) ∧
      ∀ {i b}, c.Pending k i b → ∃ e, l i = some e := by
  have gleaned := gleaned_of_collect assembled collected
  obtain ⟨_, passes, none_left⟩ := passes_of_outcome collected outcome
  have underway := passes.underway gleaned.distinct gleaned.marked
  obtain ⟨l, settled⟩ := underway.settled hf1 hf
  refine ⟨_, l, settled, underway.once hf, fun {i b} check => ?_⟩
  rcases hl : l i with _ | e
  · have := settled.checks check
    rw [hl] at this
    cases (none_left i).symm.trans this
  · exact ⟨e, rfl⟩

/-- Handlers bind one name, and nothing else is put in. -/
theorem substName_eq_iff (user : isReserved x = false) (other : errVar ≠ x) (y : String) :
    substName handleError errVar y = x ↔ y = x := by
  have hne : handleError ≠ x := by
    rintro rfl
    cases user
  unfold substName
  by_cases h : y = handleError
  · rw [h, if_pos (beq_self_eq_true _)]
    exact iff_of_false other hne
  · rw [if_neg fun same => h (eq_of_beq same)]

/-- **Names in the copies of handlers.** After a run that ends well, the guard of
each check holds copies of the handlers of its chain, in this order. A use of a
name `x` in a copy is the copy of a use in the handler, unless it is in a short
definition of what a copy before has declared. It means what it meant at the
handler in exactly these cases: it is declared outside the handler, no copy
before declares `x`, and `x` means the same at the guard; or it is declared in
the handler, and not by a short definition that finds `x` declared by the
copies before. At the guard, `x` means what it means at the statement of the
check, unless that is left behind. -/
theorem expand_copies_resolve (assembled : Package.assemble inputs = .ok p)
    (collected : p.collect = .ok (q, c)) (outcome : (p.expand typing).outcome = .ok summary)
    {f₀ : SourceFile} (hf₀ : p.files[k]? = some f₀) (hf₁ : q.files[k]? = some f₁)
    (hf : (p.expand typing).package.files[k]? = some f) (user : isReserved x = false)
    (named : x ≠ "_") :
    ∃ l : Ledger, f₁.tree.term.settle l = ([f.tree.term], []) ∧
      ∀ i b, c.Pending k i b → ∃ e errVar copies whole rc rg, l i = some e ∧
        HandlesBy c.handlers b.chain errVar copies whole e.guard ∧
        e.guard.statement ∈ standing [f.tree.term] ∧
        .stmt b.stmt rc ∈ f₀.tree.meanings x ∧ .stmt e.guard.info.id rg ∈ f.tree.meanings x ∧
        Shifted (fun d => LeftIn l b.stmt d (standing [f₁.tree.term])) rc rg ∧
        ∀ m j copy, b.chain[m]? = some j → copies[m]? = some copy → ∃ h t φ, c.handlers[j]? = some h ∧
          t.statement ∈ standing [f₀.tree.term] ∧ handlerBody? t = some h.body ∧
          CopiedBy φ (substName handleError errVar) (statements h.body.stmts) (statements copy) ∧
          ∀ u' r', 0 < countIn u' [e.guard.statement] → 0 < countStmts u' copy →
            .use u' r' ∈ f.tree.meanings x →
            UseResolved x f₀.tree (statements h.body.stmts) φ (declaredBefore x copies m) rg u' r' := by
  have gleaned := gleaned_of_collect assembled collected
  have distinct := assemble_distinct assembled
  have distinct₀ : ∀ i, countFiles i p.files ≤ 1 := fun i =>
    Nat.le_trans (Nat.le_add_right _ _) (distinct i)
  have once₀ : ∀ i, f₀.tree.term.count i ≤ 1 := fun i => Nat.le_trans (le_countFiles hf₀ i) (distinct₀ i)
  obtain ⟨hq, freed⟩ := collect_ok collected distinct₀
  obtain ⟨c', l, settled, once, expanded⟩ := exists_settled_of_outcome assembled collected outcome hf₁ hf
  refine ⟨l, settled.tree, fun i b check => ?_⟩
  obtain ⟨e, he⟩ := expanded check
  have chained := collect_chain collected distinct₀ hf₀ check
  obtain ⟨errVar, copies, whole, other, handles, onceWhole, new⟩ := settled.handles user named check
    (fun j hj => (chained j hj).imp fun _ ⟨_, hh, _⟩ => hh) he
  obtain ⟨rc, rg, hrc, hrg, shifted, seen⟩ := settled.guard_view gleaned hf₁ once user named check he
  refine ⟨e, errVar, copies, whole, rc, rg, he, handles, settled.guard_stands gleaned hf₁ check he,
    (freed.freed hf₀ hf₁).meanings_subset once₀ hrc, hrg, shifted, fun m j copy hm hcopy => ?_⟩
  obtain ⟨copy', hcopy', h, hh, _, _, copies_h⟩ := exists_getElem?_of_forall₂ handles.2.2 hm
  cases hcopy.symm.trans hcopy'
  obtain ⟨h', t, hh', ht, hbody⟩ := chained j (mem_of_getElem? hm)
  cases hh.symm.trans hh'
  obtain ⟨φ, copied⟩ := Handler.exists_copiedBy copies_h fun i =>
    Nat.le_trans (count_body_le_file ht hbody i) (once₀ i)
  refine ⟨h, t, φ, hh, ht, hbody, copied, fun u' r' inGuard inCopy hu => ?_⟩
  have declared : ∀ d ∈ declaredBefore x copies m, 0 < countStmts d.id (copies.take m).flatten := fun d hd => by
    rw [← countIn_stmts]
    exact declaredIn_node hd
  refine use_in_copy_resolved once₀ ht hbody copied (substName_eq_iff user other) (fun d hd => ?_)
    (fun d hd => ?_) (handles.use_in_copy onceWhole hcopy (seen.only _ hu inGuard) inCopy)
  · -- the package has no nodes from its counter on
    have le := handles.count_le hcopy d.id
    have pos := declared d hd
    have fresh : p.nextId ≤ d.id := by
      rw [← congrArg Package.nextId hq]
      exact new d.id (by omega)
    have unused := distinct d.id
    have occurs := le_countFiles hf₀ d.id
    rw [spare, if_pos fresh] at unused
    omega
  · have le := handles.count_le hcopy d.id
    have pos := declared d hd
    have once := onceWhole d.id
    rw [countIn_stmts]
    omega

/-- Two handlers, of which the second declares what the first uses. -/
def shadowingHandler : SourceInput :=
  ⟨"f.go2", "package p\nfunc f() error \x7b\nn := 1\nhandle e \x7b\nlog(n)\n\x7d\nhandle e \x7b\nn := 2\n" ++
    "log(n)\n\x7d\ncheck g()\n\x7d\n", true⟩

/-- The type of the check. -/
def shadowingTypes : TypeInfo := { types := (∅ : Std.TreeMap NodeId Ty).insert 27 (.named "" "error") }

/-- The source expands, with one check whose chain has both handlers. -/
theorem shadowingHandler_expands :
    ∃ p q c b h f₀ f₁ f summary, Package.assemble [shadowingHandler] = .ok p ∧ p.collect = .ok (q, c) ∧
      (p.expand fun _ _ => shadowingTypes).outcome = .ok summary ∧ p.files[0]? = some f₀ ∧
      q.files[0]? = some f₁ ∧ (p.expand fun _ _ => shadowingTypes).package.files[0]? = some f ∧
      c.Pending 0 27 b ∧ b.chain = [1, 0] ∧ c.handlers[0]? = some h ∧
      meaningsIn "n" ⟨none, false⟩ (statements h.body.stmts) = [.stmt 11 none, .use 9 none] ∧
      meaningsIn "n" ⟨none, false⟩ (statements (h.instantiate "_go2error0" 43).1)
        = [.stmt 44 none, .use 47 none] ∧
      countIn 4 (statements h.body.stmts) = 0 ∧
      .use 9 (some 4) ∈ f₀.tree.meanings "n" ∧ .use 47 (some 37) ∈ f.tree.meanings "n" ∧
      ∃ guard ∈ standing [f.tree.term], guard.kind = .cond ∧ 0 < countIn 47 [guard] := by
  have run : (collectInputs [shadowingHandler]).map (fun (p, q, c) =>
      ((p.expand fun _ _ => shadowingTypes).outcome.toBool,
        p.files[0]?.map fun f => decide (.use 9 (some 4) ∈ f.tree.meanings "n"),
        q.files[0]?.isSome,
        (p.expand fun _ _ => shadowingTypes).package.files[0]?.map fun (f : SourceFile) =>
          decide (.use 47 (some 37) ∈ f.tree.meanings "n") && (standing [f.tree.term]).any fun guard =>
            decide (guard.kind = .cond) && decide (0 < countIn 47 [guard]),
        (c.checks.get? 27).map fun b => decide (b.file = 0 ∧ b.chain = [1, 0]),
        c.handlers[0]?.map fun h => decide (
          meaningsIn "n" ⟨none, false⟩ (statements h.body.stmts) = [.stmt 11 none, .use 9 none] ∧
          meaningsIn "n" ⟨none, false⟩ (statements (h.instantiate "_go2error0" 43).1)
            = [.stmt 44 none, .use 47 none] ∧
          countIn 4 (statements h.body.stmts) = 0)))
      = some (true, some true, true, some true, some true, some true) := by decide +kernel
  obtain ⟨⟨p, q, c⟩, h, run⟩ := Option.map_eq_some_iff.mp run
  obtain ⟨hp, hq⟩ := collect_of_collectInputs h
  simp only [Prod.mk.injEq, Option.map_eq_some_iff, decide_eq_true_eq, Option.isSome_iff_exists,
    any_eq_true, Bool.and_eq_true] at run
  obtain ⟨ended, ⟨f₀, hf0, source⟩, ⟨f₁, hf1⟩, ⟨f, hf, target, guard⟩, ⟨b, hb, hfile, hchain⟩,
    ⟨handler, hhandler, uses, copied, outside⟩⟩ := run
  obtain ⟨summary, outcome⟩ : ∃ summary, (p.expand fun _ _ => shadowingTypes).outcome = .ok summary := by
    rcases houtcome : (p.expand fun _ _ => shadowingTypes).outcome with e | summary
    · rw [houtcome] at ended
      cases ended
    · exact ⟨summary, rfl⟩
  exact ⟨p, q, c, b, handler, f₀, f₁, f, summary, hp, hq, outcome, hf0, hf1, hf, ⟨hb, hfile⟩, hchain,
    hhandler, uses, copied, outside, source, target, guard⟩

/-- The use of `n` in the first handler means the variable of the function. Its
copy stands in the guard after the copy of the second handler, and means the
variable of that one. -/
theorem expand_copies_captured : ∃ p q c b h copy φ f₀ f summary, Package.assemble [shadowingHandler] = .ok p ∧
      p.collect = .ok (q, c) ∧ (p.expand fun _ _ => shadowingTypes).outcome = .ok summary ∧
      p.files[0]? = some f₀ ∧ (p.expand fun _ _ => shadowingTypes).package.files[0]? = some f ∧
      c.Pending 0 27 b ∧ b.chain = [1, 0] ∧ c.handlers[0]? = some h ∧ h.Copies "_go2error0" copy ∧
      CopiedBy φ (substName handleError "_go2error0") (statements h.body.stmts) (statements copy) ∧
      (∃ guard ∈ standing [f.tree.term], guard.kind = .cond ∧ 0 < countIn 47 [guard]) ∧
      φ 9 = 47 ∧ .use 9 (some 4) ∈ f₀.tree.meanings "n" ∧ .use 47 (some 37) ∈ f.tree.meanings "n" ∧
      some 37 ≠ carriedOver φ (statements h.body.stmts) (some 4) := by
  obtain ⟨p, q, c, b, h, f₀, f₁, f, summary, hp, hq, outcome, hf₀, -, hf, hb, hchain, hh, uses, copies,
    outside, source, target, guard⟩ := shadowingHandler_expands
  have distinct : ∀ i, countFiles i p.files ≤ 1 := fun i =>
    Nat.le_trans (Nat.le_add_right _ _) (assemble_distinct hp i)
  obtain ⟨h', t, hh', ht, hbody⟩ := collect_chain hq distinct hf₀ hb 0 (by rw [hchain]; decide)
  cases hh.symm.trans hh'
  have copy : h.instantiate "_go2error0" 43 = ((h.instantiate "_go2error0" 43).1, _) := rfl
  obtain ⟨φ, copied⟩ := Handler.exists_copiedBy copy fun i =>
    Nat.le_trans (count_body_le_file ht hbody i) (Nat.le_trans (le_countFiles hf₀ i) (distinct i))
  have keeps : ∀ y, substName handleError "_go2error0" y = "n" ↔ y = "n" := substName_eq_iff (by decide) (by decide)
  have carried := meaningsIn_carry keeps (statements h.body.stmts) (ρ := Option.map φ)
    (fun _ _ => rfl) ⟨none, false⟩
  rw [← copied.eq_relabel, uses] at carried
  have same : [Meaning.stmt 44 none, .use 47 none] = [.stmt (φ 11) none, .use (φ 9) none] := copies.symm.trans carried
  refine ⟨p, q, c, b, h, _, φ, f₀, f, summary, hp, hq, outcome, hf₀, hf, hb, hchain, hh, ⟨43, _, copy⟩,
    copied, guard, ?_, source, target, ?_⟩
  · simp only [List.cons.injEq, Meaning.use.injEq] at same
    exact same.2.1.1.symm
  · rw [carriedOver_of_foreign fun d hd => by cases hd; exact outside]
    decide

theorem expand_copies_resolve_shadowingHandler :
    ∃ p q c b f₀ f₁ f l summary e errVar copies whole rg, Package.assemble [shadowingHandler] = .ok p ∧
      p.collect = .ok (q, c) ∧ (p.expand fun _ _ => shadowingTypes).outcome = .ok summary ∧
      p.files[0]? = some f₀ ∧ q.files[0]? = some f₁ ∧
      (p.expand fun _ _ => shadowingTypes).package.files[0]? = some f ∧
      f₁.tree.term.settle l = ([f.tree.term], []) ∧ c.Pending 0 27 b ∧ b.chain = [1, 0] ∧ l 27 = some e ∧
      HandlesBy c.handlers b.chain errVar copies whole e.guard ∧
      .stmt e.guard.info.id rg ∈ f.tree.meanings "n" ∧
      ∀ m j copy, b.chain[m]? = some j → copies[m]? = some copy → ∃ h t φ, c.handlers[j]? = some h ∧
        t.statement ∈ standing [f₀.tree.term] ∧ handlerBody? t = some h.body ∧
        CopiedBy φ (substName handleError errVar) (statements h.body.stmts) (statements copy) ∧
        ∀ u' r', 0 < countIn u' [e.guard.statement] → 0 < countStmts u' copy →
          .use u' r' ∈ f.tree.meanings "n" →
          UseResolved "n" f₀.tree (statements h.body.stmts) φ (declaredBefore "n" copies m) rg u' r' := by
  obtain ⟨p, q, c, b, -, f₀, f₁, f, summary, hp, hq, outcome, hf₀, hf₁, hf, hb, hchain, -⟩ := shadowingHandler_expands
  obtain ⟨l, settled, all⟩ := expand_copies_resolve hp hq outcome hf₀ hf₁ hf (x := "n") (by decide) (by decide)
  obtain ⟨e, errVar, copies, whole, -, rg, he, handles, -, -, hrg, -, resolved⟩ := all 27 b hb
  exact ⟨p, q, c, b, f₀, f₁, f, l, summary, e, errVar, copies, whole, rg, hp, hq, outcome, hf₀, hf₁, hf,
    settled, hb, hchain, he, handles, hrg, resolved⟩

end CheckHandle
