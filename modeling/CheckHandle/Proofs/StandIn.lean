import CheckHandle.Proofs.Roles

/-!
# What becomes of the stand-in

In the body of a handler the lowering writes one fixed name for the error,
wherever the name of the error stands as a word. A copy of the handler puts the
name of the error in its place, but only where a walk comes to it. So the
stand-in stays where a handler declares it, takes it as a parameter or names a
type by it, and nowhere else.
-/

namespace CheckHandle

open List

variable {x : String} {r : Role} {f : NodeId × Term} {block : Info × List Statement}

attribute [local simp] Expr.kind Expr.parts Kind.aside Kind.inRole Kind.spelled Term.inRole inRoleIn
  inRoleAll

/-! ## Names of what is made for a check -/

theorem TypeExpr.visited_term (t : TypeExpr) : t.term.inRole .visited = [] := by
  cases t <;> rfl

theorem TypeExpr.fixed_term (t : TypeExpr) : t.term.inRole .fixed = t.names := by
  cases t <;> simp [TypeExpr.names, TypeExpr.spelled, TypeExpr.term]

theorem TypeExpr.names_renumber (t : TypeExpr) (n : NodeId) : (t.renumber n).1.names = t.names := by
  have shape := congrArg Term.spelled (t.shape_renumber n)
  rw [Term.spelled_relabel, Term.spelled_relabel] at shape
  exact congrArg (List.map Prod.fst) shape

/-- A zero value is a predeclared name, a literal, or an empty literal of the
type. -/
theorem zeroValue_cases (info : TypeInfo) (slot : TypeExpr) :
    (∃ name ∈ ["false", "nil"], zeroValue info slot = Expr.fresh name) ∨
      (∃ kind text, zeroValue info slot = do return .lit (← freshInfo) kind text) ∨
      zeroValue info slot = do
        let ty ← slot.renumber
        return .composite (← freshInfo) (some ty) [] := by
  unfold zeroValue
  extract_lets zero
  clear_value zero
  cases zero
  · exact .inl ⟨"false", by simp, rfl⟩
  · exact .inr (.inl ⟨_, _, rfl⟩)
  · exact .inr (.inl ⟨_, _, rfl⟩)
  · exact .inr (.inr rfl)
  · exact .inl ⟨"nil", by simp, rfl⟩

variable {info : TypeInfo} {n n' : NodeId} {slots : List TypeExpr} {xs : List Expr}
  {errVar : String} {s : Stmt} {names : List String}

/-- A zero value spells a predeclared name, or names the declared type. -/
theorem zeroValue_inRole {slot : TypeExpr} {x : Expr} (h : zeroValue info slot n = (x, n')) :
    (∀ y ∈ (x.term true).inRole .visited, y = "false" ∨ y = "nil") ∧
      ∀ y ∈ (x.term true).inRole .fixed, y ∈ slot.names := by
  rcases zeroValue_cases info slot with ⟨name, hname, heq⟩ | ⟨kind, text, heq⟩ | heq
  · rw [heq] at h
    obtain ⟨_, rfl⟩ := Expr.fresh_eq h
    simpa [Expr.term] using hname
  · rw [heq] at h
    simp only [fresh_bind, fresh_pure] at h
    obtain ⟨_, _, -, rfl, -⟩ := h
    simp [Expr.term]
  · rw [heq] at h
    simp only [fresh_bind, fresh_pure] at h
    obtain ⟨ty, n1, hty, _, _, -, rfl, -⟩ := h
    have names : ty.names = slot.names := by rw [← slot.names_renumber n, hty]
    simp [Expr.term, typeTerm?, exprTerms, TypeExpr.visited_term, TypeExpr.fixed_term, names]

theorem zeroValues_inRole (h : slots.mapM (zeroValue info) n = (xs, n')) :
    (∀ y ∈ inRoleAll .visited (exprTerms true xs), y = "false" ∨ y = "nil") ∧
      ∀ y ∈ inRoleAll .fixed (exprTerms true xs), ∃ slot ∈ slots, y ∈ slot.names := by
  induction slots generalizing n n' xs with
  | nil =>
    rw [mapM_nil, fresh_pure] at h
    obtain ⟨rfl, -⟩ := h
    exact ⟨nofun, nofun⟩
  | cons slot slots ih =>
    simp only [mapM_cons, fresh_bind, fresh_pure] at h
    obtain ⟨x, n1, first, others, n2, rest, rfl, -⟩ := h
    obtain ⟨hvisited, hfixed⟩ := zeroValue_inRole first
    obtain ⟨ihvisited, ihfixed⟩ := ih rest
    constructor
    · intro y hy
      rw [exprTerms, inRoleAll, mem_append] at hy
      exact hy.elim (hvisited y) (ihvisited y)
    · intro y hy
      rw [exprTerms, inRoleAll, mem_append] at hy
      rcases hy with hy | hy
      · exact ⟨slot, mem_cons_self, hfixed y hy⟩
      · obtain ⟨slot', hslot', hy⟩ := ihfixed y hy
        exact ⟨slot', mem_cons_of_mem _ hslot', hy⟩

theorem panicStmt_inRole (h : panicStmt errVar n = (s, n')) :
    inRoleIn .visited [s.statement] = ["panic", errVar] ∧ inRoleIn .fixed [s.statement] = [] := by
  unfold panicStmt Expr.freshCall at h
  simp only [fresh_bind, fresh_pure] at h
  obtain ⟨arg, _, harg, call, _, ⟨fn, _, hfn, _, _, -, rfl, -⟩, _, _, -, rfl, -⟩ := h
  obtain ⟨_, rfl⟩ := Expr.fresh_eq harg
  obtain ⟨_, rfl⟩ := Expr.fresh_eq hfn
  exact ⟨rfl, rfl⟩

/-- The default spells predeclared names and the error, and the types of the
results of its function. -/
theorem defaultHandler_inRole (h : defaultHandler info slots errVar n = (s, n')) :
    (∀ y ∈ inRoleIn .visited [s.statement], y ∈ ["false", "nil", "panic", errVar]) ∧
      ∀ y ∈ inRoleIn .fixed [s.statement], ∃ slot ∈ slots, y ∈ slot.names := by
  have panics : panicStmt errVar n = (s, n') → _ := panicStmt_inRole
  unfold defaultHandler at h
  rcases hlast : slots.getLast? with _ | last
  · simp only [hlast] at h
    obtain ⟨hvisited, hfixed⟩ := panics h
    simp [hvisited, hfixed]
  · simp only [hlast] at h
    split at h
    · simp only [fresh_bind, fresh_pure] at h
      obtain ⟨zeros, _, hzeros, err, _, herr, node, _, -, rfl, -⟩ := h
      obtain ⟨own, rfl⟩ := Expr.fresh_eq herr
      obtain ⟨hvisited, hfixed⟩ := zeroValues_inRole hzeros
      have names : ∀ r, inRoleIn r [(Stmt.ret node (zeros ++ [.ident own errVar])).statement]
          = inRoleAll r (exprTerms true zeros) ++ (Kind.ident errVar).inRole r := by
        intro r
        cases r <;> simp [Stmt.statement, Stmt.kind, Stmt.parts, exprTerms_append, inRoleAll_append, exprTerms]
      rw [names, names]
      constructor
      · intro y hy
        simp only [Kind.inRole, mem_append, mem_singleton] at hy
        rcases hy with hy | rfl
        · rcases hvisited y hy with rfl | rfl <;> simp
        · simp
      · intro y hy
        simp only [Kind.inRole, mem_append, not_mem_nil, or_false] at hy
        obtain ⟨slot, hslot, hy⟩ := hfixed y hy
        exact ⟨slot, dropLast_subset _ hslot, hy⟩
    · obtain ⟨hvisited, hfixed⟩ := panics h
      simp [hvisited, hfixed]

/-- A copy of a handler is its body with the name of the error put in. -/
theorem Handler.Copies.areLike {h : Handler} {copy : List Stmt} (copies : h.Copies errVar copy) :
    AreLike (substName handleError errVar) h.body.stmts copy := by
  obtain ⟨n, n', hcopy⟩ := copies
  obtain ⟨body, n1, hbody, heq⟩ := fresh_bind.mp hcopy
  obtain ⟨rfl, -⟩ := fresh_pure.mp heq
  have shape : body.term.shape = h.body.term.shape := by
    rw [← h.body.shape_renumber n, hbody]
  have renamed : (body.rename handleError errVar).term.shape
      = h.body.term.relabel (fun _ => 0) (substName handleError errVar) := by
    have given := congrArg (Term.relabel (fun _ => 0) (substName handleError errVar)) shape
    rw [Term.relabel_relabel, Term.relabel_relabel] at given
    rw [Block.term_rename]
    exact (Term.relabel_relabel ..).trans given
  rcases hcopied : body.rename handleError errVar with ⟨info', stmts'⟩
  rcases hwritten : h.body with ⟨info, stmts⟩
  simp only [hcopied, hwritten, Block.term, Term.relabel, Term.block.injEq] at renamed
  exact renamed.2

theorem areLike_flatten {hs : List Handler} {copies : List (List Stmt)}
    (h : List.Forall₂ (Handler.Copies errVar) hs copies) :
    AreLike (substName handleError errVar) (hs.flatMap fun h => h.body.stmts) copies.flatten := by
  induction h with
  | nil => exact areLike_nil.mpr rfl
  | cons first _ ih => exact (Handler.Copies.areLike first).append ih

/-- Trimming cuts a list off, or goes on in what follows. -/
theorem trimStmts_append (ss ts : List Stmt) :
    trimStmts (ss ++ ts) = trimStmts ss ∨ trimStmts (ss ++ ts) = trimStmts ss ++ trimStmts ts := by
  induction ss with
  | nil => exact .inr rfl
  | cons s ss ih =>
    rw [cons_append, trimStmts, trimStmts]
    split
    · exact .inl rfl
    · rcases ih with ih | ih
      · exact .inl (by rw [ih])
      · exact .inr (by rw [ih]; rfl)

/-- The statements that the handlers of a chain leave, as they were written. -/
def Collected.handling (c : Collected) (chain : List Nat) : List Stmt :=
  trimStmts ((chain.filterMap fun j => c.handlers[j]?).flatMap fun h => h.body.stmts)

/-- A temporary ends in a digit. -/
theorem temporaryName_ne_handleError (typeName : String) (n : Nat) : temporaryName typeName n ≠ handleError := by
  intro h
  have last := congrArg (fun s : String => s.toList.getLast?) h
  have digits : (toString n).toList = Nat.toDigits 10 n := by simp
  simp only [temporaryName, String.toList_append, digits, getLast?_append] at last
  rcases hlast : (Nat.toDigits 10 n).getLast? with _ | c
  · exact Nat.toDigits_ne_nil (getLast?_eq_none_iff.mp hlast)
  · have digit := Nat.isDigit_of_mem_toDigits (by decide) (by decide) (mem_of_getLast? hlast)
    rw [hlast, show handleError.toList.getLast? = some 'r' from by decide] at last
    obtain rfl : c = 'r' := by simpa using last
    cases digit

theorem AreTemporary.ne_handleError (temporary : AreTemporary names) {name : String}
    (hname : name ∈ names) : name ≠ handleError := by
  rcases temporary name hname with rfl | ⟨typeName, n, rfl⟩
  · decide
  · exact temporaryName_ne_handleError typeName n

theorem inRole_idents (h : xs.map Expr.ident? = names.map some) :
    inRoleAll r (exprTerms false xs) = names.flatMap fun name => (Kind.ident name).inRole r := by
  induction xs generalizing names with
  | nil =>
    cases names with
    | nil => rfl
    | cons => cases h
  | cons x xs ih =>
    cases names with
    | nil => cases h
    | cons name names =>
      simp only [map_cons, List.cons.injEq] at h
      obtain ⟨info, rfl⟩ := Expr.ident?_eq_some h.1
      simp [exprTerms, ih h.2]

theorem exists_idents (h : ∀ x ∈ xs, ∃ name ∈ names, x.ident? = some name) :
    ∃ given : List String, xs.map Expr.ident? = given.map some ∧ ∀ name ∈ given, name ∈ names := by
  induction xs with
  | nil => exact ⟨[], rfl, nofun⟩
  | cons x xs ih =>
    obtain ⟨given, hgiven, hall⟩ := ih fun y hy => h y (mem_cons_of_mem _ hy)
    obtain ⟨name, hname, hx⟩ := h x mem_cons_self
    exact ⟨name :: given, by simp [hx, hgiven], forall_mem_cons.mpr ⟨hname, hall⟩⟩

section Guards

variable {c : Collected} {b : CheckBinding} {e : Expanded}

/-- What was made for a check: the names of the results, and what its guard
spells besides the statements of its handlers, a default handler if they do not end. -/
theorem Expanded.Stems.inRole (stems : e.Stems info c b n n') :
    (∀ r, ∀ y ∈ inRoleAll r (exprTerms false (e.names ++ e.uses.getD [])), y ≠ handleError) ∧
    ∃ errVar copied default n1 n2, errVar ≠ handleError ∧
      AreLike (substName handleError errVar) (c.handling b.chain) copied ∧
      defaultHandler info (c.funcs[b.func]?.getD []) errVar n1 = (default, n2) ∧
      ∀ r, ∃ rest ⊆ inRoleIn r [default.statement], inRoleIn r [e.guard.statement] =
        (Kind.ident errVar).inRole r ++ (Kind.ident "nil").inRole r ++ inRoleIn r (statements copied) ++ rest := by
  obtain ⟨slot, values, errVar, m, m', -, -, made, temporary⟩ := stems
  obtain ⟨n1, prelude⟩ := made.prelude
  obtain ⟨hnames, cond, test, err, nil, block, copies, default, n2, n3, _, hguard, hdefault, hcopies⟩ :=
    checkPrelude_guard (prelude (.ident ⟨0, {}⟩ ""))
  have last : errVar ∈ values ++ [errVar] := by simp
  have spelled : ∀ {r : Role} {name y : String}, y ∈ (Kind.ident name).inRole r → y = name := by
    intro r name y hy
    cases r with
    | visited => exact mem_singleton.mp hy
    | fixed => cases hy
  constructor
  · intro r y hy
    rw [exprTerms_append, inRoleAll_append, inRole_idents hnames, mem_append, mem_flatMap] at hy
    rcases hy with ⟨name, hname, hy⟩ | hy
    · rw [spelled hy]
      exact temporary.ne_handleError hname
    · -- what stands for the check is one of the names of its results
      obtain ⟨uses, huses⟩ := exists_idents made.named
      rw [inRole_idents huses.1, mem_flatMap] at hy
      obtain ⟨name, hname, hy⟩ := hy
      rw [spelled hy]
      exact temporary.ne_handleError (huses.2 name hname)
  · have panics : KeepsPanic (substName handleError errVar) :=
      substName_eq_iff (by decide) (temporary.ne (by decide) (by decide) errVar last)
    refine ⟨errVar, trimStmts copies.flatten, default, n2, n3, temporary.ne_handleError last,
      trimStmts_like panics (areLike_flatten (mapM_copies hcopies)), hdefault, fun r => ?_⟩
    have whole : inRoleIn r [e.guard.statement] = (Kind.ident errVar).inRole r ++ (Kind.ident "nil").inRole r
        ++ inRoleIn r (statements (trimStmts (copies.flatten ++ [default]))) := by
      rw [hguard]
      cases r <;> simp [Stmt.statement, Stmt.kind, Stmt.parts, stmtTerm?, Term.absent, Term.spelled, spelledAll, Block.term]
    have ends := defaultHandler_isTerminating info (c.funcs[b.func]?.getD []) errVar n2
    rw [hdefault] at ends
    rcases trimStmts_append copies.flatten [default] with htrim | htrim
    · exact ⟨[], nil_subset _, by rw [whole, htrim, append_nil]⟩
    · refine ⟨_, List.Subset.refl _, ?_⟩
      rw [whole, htrim, statements_append, inRoleIn_append, trimStmts, ends.1, if_pos ends.2, ← append_assoc]
      rfl

/-- No identifier expression that was made for a check is the stand-in. -/
theorem Expanded.Stems.not_visited (stems : e.Stems info c b n n') : handleError ∉ e.inRole .visited := by
  obtain ⟨names, errVar, copied, default, n1, n2, hne, like, hdefault, guard⟩ := stems.inRole
  obtain ⟨rest, hrest, hguard⟩ := guard .visited
  intro h
  rw [Expanded.inRole, hguard, mem_append] at h
  rcases h with h | h
  · exact names _ _ h rfl
  simp only [Kind.inRole, mem_append, mem_singleton] at h
  rcases h with ((h | h) | h) | h
  · exact hne h.symm
  · exact absurd h (by decide)
  · -- the copies have the error in its place
    rw [like.visited] at h
    obtain ⟨y, -, hy⟩ := mem_map.mp h
    unfold substName at hy
    split at hy
    · exact hne hy
    · rename_i hother
      exact hother (by rw [hy]; exact beq_self_eq_true _)
  · -- the default does not know it
    have := (defaultHandler_inRole hdefault).1 _ (hrest h)
    simp only [mem_cons, not_mem_nil, or_false] at this
    rcases this with h | h | h | h
    · exact absurd h (by decide)
    · exact absurd h (by decide)
    · exact absurd h (by decide)
    · exact hne h.symm

/-- Elsewhere the stand-in stays as its handlers have it; else it comes from the
types of the results. -/
theorem Expanded.Stems.fixed (stems : e.Stems info c b n n') : (handleError ∈ e.inRole .fixed →
      handleError ∈ inRoleIn .fixed (statements (c.handling b.chain)) ∨
        ∃ slot ∈ c.funcs[b.func]?.getD [], handleError ∈ slot.names) ∧
    (handleError ∈ inRoleIn .fixed (statements (c.handling b.chain)) →
      handleError ∈ inRoleIn .fixed [e.guard.statement]) := by
  obtain ⟨names, errVar, copied, default, n1, n2, hne, like, hdefault, guard⟩ := stems.inRole
  obtain ⟨rest, hrest, hguard⟩ := guard .fixed
  rw [Expanded.inRole, hguard, like.fixed, mem_append]
  simp only [Kind.inRole, nil_append]
  constructor
  · rintro (h | h)
    · exact absurd rfl (names _ _ h)
    · exact (mem_append.mp h).imp_right fun h => (defaultHandler_inRole hdefault).2 _ (hrest h)
  · exact fun h => mem_append_left _ h

end Guards

/-! ## Types of results -/

/-- The signature of a function is a part of it. -/
theorem Term.fixed_function? {t : Term} (hf : f ∈ t.function?.toList) (hx : x ∈ f.2.inRole .fixed) :
    x ∈ t.inRole .fixed := by
  rw [Option.mem_toList] at hf
  unfold Term.function? at hf
  split at hf
  · cases hf
    simp [Term.inRole, inRoleAll, hx]
  · cases hf
    simp [Term.inRole, inRoleAll, hx]
  · cases hf

mutual

theorem Term.fixed_functions : ∀ {t : Term}, f ∈ t.functions → x ∈ f.2.inRole .fixed → x ∈ t.inRole .fixed
  | .expr .., hf, hx | .group .., hf, hx => by
    rw [Term.functions, mem_append] at hf
    rcases hf with hf | hf
    · exact Term.fixed_function? hf hx
    · rw [Term.inRole]
      exact mem_append_right _ (fixed_functionsAll hf hx)
  | .fixed .., hf, _ => by simp [Term.functions] at hf
  | .block info ss, hf, hx => by
    rw [Term.functions] at hf
    rw [Term.inRole]
    exact fixed_functionsIn hf hx

theorem fixed_functionsAll : ∀ {ts : List Term}, f ∈ functionsAll ts →
    x ∈ f.2.inRole .fixed → x ∈ inRoleAll .fixed ts
  | [], hf, _ => by simp [functionsAll] at hf
  | t :: ts, hf, hx => by
    rw [functionsAll, mem_append] at hf
    rw [inRoleAll, mem_append]
    exact hf.imp (Term.fixed_functions · hx) (fixed_functionsAll · hx)

theorem fixed_functionsIn : ∀ {ss : List Statement},
    f ∈ functionsIn ss → x ∈ f.2.inRole .fixed → x ∈ inRoleIn .fixed ss
  | [], hf, _ => by simp [functionsIn] at hf
  | .mk kind info parts :: ss, hf, hx => by
    rw [functionsIn, mem_append] at hf
    rw [inRoleIn, append_assoc, mem_append, mem_append]
    exact .inr (hf.imp (fixed_functionsAll · hx) (fixed_functionsIn · hx))

end

theorem passesDown_inRole (r : Role) (xs : List String) :
    PassesDown (·.inRole r ⊆ xs) (inRoleAll r · ⊆ xs) (inRoleIn r · ⊆ xs) := by
  constructor
  · constructor <;> intros <;> simp_all [Term.inRole, inRoleAll]
  · intros
    simp_all [Term.inRole]
  · intros
    simp_all [inRoleIn]

variable {slot : TypeExpr} {out out' c c' : Collected} {b : CheckBinding}
  {p q : Package} {k : Nat} {f f₁ : SourceFile}

/-- What a statement of a block spells, the whole spells. -/
theorem inRole_standing {s : Statement} {ts : List Term} (hs : s ∈ standing ts) (hx : x ∈ inRoleIn r [s]) : x ∈ inRoleAll r ts := by
  obtain ⟨block, hblock, hs⟩ := mem_flatMap.mp hs
  obtain ⟨before, after, hsplit⟩ := append_of_mem hs
  refine (passesDown_inRole r _).of_blocksAll (List.Subset.refl _) hblock ?_
  rw [hsplit, append_cons, inRoleIn_append, inRoleIn_append]
  exact mem_append_left _ (mem_append_right _ hx)

theorem Signature.names_resultSlots {sig : Signature} (hslot : slot ∈ sig.resultSlots)
    (hx : x ∈ slot.names) : x ∈ sig.term.inRole .fixed := by
  obtain ⟨field, hfield, hslot⟩ := mem_flatMap.mp hslot
  obtain rfl := (mem_replicate.mp hslot).2
  obtain ⟨params, results⟩ := sig
  have inField : x ∈ field.spelled.map Prod.fst := by
    obtain ⟨info, names, ty, variadic, tag⟩ := field
    simp only [Field.spelled, Field.term, Term.spelled, Kind.spelled, spelledAll, TypeExpr.term_spelled,
      map_append, mem_append]
    exact .inr (.inr (.inl hx))
  have inFields : x ∈ (results.flatMap Field.spelled).map Prod.fst := by
    obtain ⟨w, hw, rfl⟩ := mem_map.mp inField
    exact mem_map_of_mem (mem_flatMap.mpr ⟨field, hfield, hw⟩)
  simp only [Signature.term, Term.inRole, Term.spelled, Kind.spelled, spelledAll, spelledAll_fields,
    map_append, mem_append]
  exact .inr (.inr (.inl (.inr inFields)))

/-- The check is bound to a function of this term, by the types of its
results. -/
def CheckBinding.Returns (b : CheckBinding) (c : Collected) (t : Term) : Prop :=
  ∃ (func : NodeId) (sig : Signature), (func, sig.term) ∈ t.functions ∧ c.funcs[b.func]? = some sig.resultSlots

theorem collectFile_returns {markers : Markers} {file : Nat} {tree tree' : File}
    (h : collectFile markers file tree out = .ok (tree', out'))
    (distinct : ∀ i, tree.term.count i ≤ 1) :
    (∃ slots, out'.funcs = out.funcs ++ slots) ∧ ∀ {i b}, out'.checks.get? i = some b →
      out.checks.get? i = some b ∨ b.file = file ∧ b.Returns out' tree'.term := by
  obtain ⟨R, -, -, bound, -⟩ := collectFile_ok h distinct
  obtain ⟨s', hwalk, -, rfl⟩ := collectFile_walk h
  obtain ⟨taken, situated⟩ := (traverses_situated markers file).inFile tree hwalk fun i => by
    simpa [countAll] using distinct i
  obtain ⟨slots, hslots, returns⟩ := situated.funcs
  refine ⟨⟨slots, hslots⟩, fun {i b} hb => ?_⟩
  have numbers : Numbers (countAll · [tree.term]) _ _ _ _ _ := numbers_start out taken (functionsAll [tree'.term])
  rcases bound hb with old | ⟨-, hfile, -⟩
  · exact .inl old
  rcases situated.news numbers (show Agrees _ _ _ [] from rfl) i b hb with old | ⟨_, -, e, _, _, _, -, -, ⟨k, hk, hfunc⟩, -⟩
  · exact .inl old
  obtain ⟨types, htypes, sig, hsig, rfl⟩ := exists_getElem?_of_forall₂ returns hk
  refine .inr ⟨hfile, e.func, sig, ?_, ?_⟩
  · have hmem := mem_of_getElem? hk
    rw [show e.sig = sig.term from hsig] at hmem
    simpa [functionsAll] using hmem
  · rw [hfunc, hslots, getElem?_append_right (Nat.le_add_right _ _), Nat.add_sub_cancel_left]
    exact htypes

theorem CheckBinding.Returns.append {t : Term} {slots : List (List TypeExpr)} (h : b.Returns c t)
    (funcs : c'.funcs = c.funcs ++ slots) : b.Returns c' t := by
  obtain ⟨func, sig, hmem, hsig⟩ := h
  refine ⟨func, sig, hmem, ?_⟩
  rw [funcs, getElem?_append_left (List.getElem?_eq_some_iff.mp hsig).1]
  exact hsig

/-- The types of the results of a check's function are written in its file. -/
theorem collect_resultSlots (collected : p.collect = .ok (q, c))
    (distinct : ∀ i, countFiles i p.files ≤ 1) (hf : q.files[k]? = some f) {i : NodeId}
    (check : c.Pending k i b) (hslot : slot ∈ c.funcs[b.func]?.getD []) (hx : x ∈ slot.names) :
    x ∈ f.tree.inRole .fixed := by
  obtain ⟨_, _, -, hf', func, sig, hsig, hslots⟩ :=
    collect_each (·.funcs) (fun c _ f b => b.Returns c f.term) .append collectFile_returns collected distinct check
  cases hf.symm.trans hf'
  rw [hslots, Option.getD_some] at hslot
  exact Term.fixed_functions hsig (Signature.names_resultSlots hslot hx)

/-! ## Whole files -/

/-- **Where the stand-in is left.** After a run that ends well, an identifier
expression of a file is the stand-in only if it was one before any check was
expanded. Elsewhere the file spells the stand-in just if it did so before, or if
the handlers of one of its checks do in what is kept of them. -/
theorem SettledFile.spells_handleError {l : Ledger} (collected : p.collect = .ok (q, c))
    (distinct : ∀ i, countFiles i p.files ≤ 1) (gleaned : Gleaned q c) (hf1 : q.files[k]? = some f₁)
    (settled : SettledFile c q.nextId k f₁.tree.term f.tree.term c' l)
    (all : ∀ {i b}, c.Pending k i b → ∃ e, l i = some e) :
    (handleError ∈ f.tree.inRole .visited ↔ handleError ∈ f₁.tree.inRole .visited) ∧
    (handleError ∈ f.tree.inRole .fixed ↔ handleError ∈ f₁.tree.inRole .fixed ∨
      ∃ i b, c.Pending k i b ∧ handleError ∈ inRoleIn .fixed (statements (c.handling b.chain))) := by
  have before : ∀ {r}, handleError ∈ f₁.tree.inRole r → handleError ∈ f.tree.inRole r := by
    intro r h
    have kept := Term.inRole_settle (x := handleError) (by decide) _ (settled.every gleaned hf1) h
    rw [settled.tree] at kept
    simpa [File.inRole] using kept
  have after : ∀ {r}, handleError ∈ f.tree.inRole r → handleError ∈ f₁.tree.inRole r ∨
      ∃ i e b info n n', l i = some e ∧ c.Pending k i b ∧ e.Stems info c b n n' ∧ handleError ∈ e.inRole r := by
    intro r h
    rcases Term.of_inRole_settle (l := l) (r := r) (x := handleError) f₁.tree.term
        (by rw [settled.tree, inRoleAll]; exact .inl (mem_append_left _ h)) with h | ⟨i, e, he, h⟩
    · exact .inl h
    · obtain ⟨b, hb⟩ := settled.keys he
      obtain ⟨info, n, n', stems⟩ := settled.stems he hb
      exact .inr ⟨i, e, b, info, n, n', he, hb, stems, h⟩
  constructor
  · refine ⟨fun h => ?_, before⟩
    rcases after h with h | ⟨i, e, b, info, n, n', -, -, stems, h⟩
    · exact h
    · exact absurd h stems.not_visited
  · constructor
    · intro h
      rcases after h with h | ⟨i, e, b, info, n, n', -, check, stems, h⟩
      · exact .inl h
      · rcases stems.fixed.1 h with h | ⟨slot, hslot, h⟩
        · exact .inr ⟨i, b, check, h⟩
        · exact .inl (collect_resultSlots collected distinct hf1 check hslot h)
    · rintro (h | ⟨i, b, check, h⟩)
      · exact before h
      · obtain ⟨e, he⟩ := all check
        obtain ⟨info, n, n', stems⟩ := settled.stems he check
        have stands := inRole_standing (settled.guard_stands gleaned hf1 check he) (stems.fixed.2 h)
        simpa [File.inRole] using stands

/-- **No stand-in is left, save in fixed places.** After a run that ends well, an
identifier expression of a file is the stand-in of the handlers' error only if
one outside the handlers was before. Where a name is declared or selected, or in
a type, the file has the stand-in in exactly these cases: it has it there outside
the handlers, or the handlers of one of its checks have it there in what is kept
of them. -/
theorem expand_handleError {inputs : List SourceInput} (assembled : Package.assemble inputs = .ok p)
    (collected : p.collect = .ok (q, c)) {typing : Typing} {summary : Summary}
    (outcome : (p.expand typing).outcome = .ok summary) (hf₁ : q.files[k]? = some f₁)
    (hf : (p.expand typing).package.files[k]? = some f) :
    (handleError ∈ f.tree.inRole .visited ↔ handleError ∈ f₁.tree.inRole .visited) ∧
    (handleError ∈ f.tree.inRole .fixed ↔ handleError ∈ f₁.tree.inRole .fixed ∨
      ∃ i b, c.Pending k i b ∧ handleError ∈ inRoleIn .fixed (statements (c.handling b.chain))) := by
  have distinct : ∀ i, countFiles i p.files ≤ 1 := fun i =>
    Nat.le_trans (Nat.le_add_right _ _) (assemble_distinct assembled i)
  obtain ⟨c', l, settled, -, all⟩ := exists_settled_of_outcome assembled collected outcome hf₁ hf
  exact settled.spells_handleError collected distinct (gleaned_of_collect assembled collected) hf₁ all

/-- A handler with a closure that has a parameter of the error's name. -/
def closingHandler : SourceInput :=
  ⟨"f.go2", "package p\nfunc f() error \x7b\nhandle e \x7b\nfunc(e int) \x7b\x7d(e)\n\x7d\n" ++
    "check g()\n\x7d\n", true⟩

/-- The type of the check. -/
def closingTypes : TypeInfo := { types := (∅ : Std.TreeMap NodeId Ty).insert 18 (.named "" "error") }

/-- The argument of the closure is renamed, and its parameter is not. -/
theorem expand_handleError_closure :
    ∃ p q c b f₁ f summary, Package.assemble [closingHandler] = .ok p ∧ p.collect = .ok (q, c) ∧
      (p.expand fun _ _ => closingTypes).outcome = .ok summary ∧ q.files[0]? = some f₁ ∧
      (p.expand fun _ _ => closingTypes).package.files[0]? = some f ∧ c.Pending 0 18 b ∧
      handleError ∈ inRoleIn .visited (statements (c.handling b.chain)) ∧
      handleError ∉ f₁.tree.inRole .visited ∧ handleError ∉ f₁.tree.inRole .fixed ∧
      handleError ∉ f.tree.inRole .visited ∧ handleError ∈ f.tree.inRole .fixed := by
  have run : (collectInputs [closingHandler]).map (fun (p, q, c) =>
      ((p.expand fun _ _ => closingTypes).outcome.toBool,
        q.files[0]?.map (fun f => decide (handleError ∉ f.tree.inRole .visited ∧ handleError ∉ f.tree.inRole .fixed)),
        (p.expand fun _ _ => closingTypes).package.files[0]?.isSome,
        (c.checks.get? 18).map fun b => decide (b.file = 0 ∧
          handleError ∈ inRoleIn .visited (statements (c.handling b.chain)) ∧
          handleError ∈ inRoleIn .fixed (statements (c.handling b.chain)))))
      = some (true, some true, true, some true) := by decide +kernel
  obtain ⟨⟨p, q, c⟩, h, run⟩ := Option.map_eq_some_iff.mp run
  obtain ⟨hp, hq⟩ := collect_of_collectInputs h
  simp only [Prod.mk.injEq, Option.map_eq_some_iff, decide_eq_true_eq, Option.isSome_iff_exists] at run
  obtain ⟨ended, ⟨f₁, hf₁, notVisited, notFixed⟩, ⟨f, hf⟩, ⟨b, hb, hfile, visited, fixed⟩⟩ := run
  obtain ⟨summary, outcome⟩ : ∃ summary, (p.expand fun _ _ => closingTypes).outcome = .ok summary := by
    rcases houtcome : (p.expand fun _ _ => closingTypes).outcome with e | summary
    · rw [houtcome] at ended
      cases ended
    · exact ⟨summary, rfl⟩
  obtain ⟨onlyVisited, onlyFixed⟩ := expand_handleError hp hq outcome hf₁ hf
  exact ⟨p, q, c, b, f₁, f, summary, hp, hq, outcome, hf₁, hf, ⟨hb, hfile⟩, visited, notVisited, notFixed,
    fun left => notVisited (onlyVisited.mp left), onlyFixed.mpr (.inr ⟨18, b, ⟨hb, hfile⟩, fixed⟩)⟩

end CheckHandle
