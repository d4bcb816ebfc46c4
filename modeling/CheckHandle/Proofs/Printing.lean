import Mathlib
import CheckHandle.Syntax.Parser
import CheckHandle.Syntax.Printer

/-!
# Printing and what it leaves out

A bare tree is a tree without the identities of its nodes and the places they
were read from. Printing a tree prints its bare tree (`File.print_bare`), so files
that differ in nothing else have the same text, and files with different texts
differ in more.

The text does not determine the bare tree. A lone result without a name is
printed without the dots of a variadic one, so two files that can be read have one
text, and no reader gives every printed file back (`print_not_undone`).
-/

namespace CheckHandle

open List

/-- What every node of a bare tree carries. -/
def Info.bare : Info := ⟨0, {}⟩

def Ident.bare (i : Ident) : Ident := ⟨.bare, i.name⟩

mutual

def TypeExpr.bare : TypeExpr → TypeExpr
  | .name _ package name => .name .bare package name
  | .pointer _ elem => .pointer .bare elem.bare
  | .slice _ elem => .slice .bare elem.bare
  | .array _ len elem => .array .bare (bareExpr? len) elem.bare
  | .map _ key value => .map .bare key.bare value.bare
  | .func _ sig => .func .bare sig.bare
  | .struct _ fields => .struct .bare (bareFields fields)
  | .interface _ elems => .interface .bare (bareFields elems)

def bareType? : Option TypeExpr → Option TypeExpr
  | none => none
  | some ty => some ty.bare

def Field.bare : Field → Field
  | ⟨_, names, ty, variadic, tag⟩ => ⟨.bare, names.map Ident.bare, ty.bare, variadic, tag⟩

def bareFields : List Field → List Field
  | [] => []
  | f :: fs => f.bare :: bareFields fs

def Signature.bare : Signature → Signature
  | ⟨params, results⟩ => ⟨bareFields params, bareFields results⟩

def Expr.bare : Expr → Expr
  | .ident _ name => .ident .bare name
  | .lit _ kind text => .lit .bare kind text
  | .composite _ ty elts => .composite .bare (bareType? ty) (bareExprs elts)
  | .funcLit _ sig body => .funcLit .bare sig.bare body.bare
  | .paren _ x => .paren .bare x.bare
  | .selector _ x sel => .selector .bare x.bare sel.bare
  | .index _ x index => .index .bare x.bare index.bare
  | .slice _ x lo hi max => .slice .bare x.bare (bareExpr? lo) (bareExpr? hi) (bareExpr? max)
  | .typeAssert _ x ty => .typeAssert .bare x.bare ty.bare
  | .call _ fn args ellipsis => .call .bare fn.bare (bareExprs args) ellipsis
  | .unary _ op x => .unary .bare op x.bare
  | .binary _ op x y => .binary .bare op x.bare y.bare
  | .keyValue _ key value => .keyValue .bare key.bare value.bare
  | .type _ ty => .type .bare ty.bare

def bareExpr? : Option Expr → Option Expr
  | none => none
  | some x => some x.bare

def bareExprs : List Expr → List Expr
  | [] => []
  | x :: xs => x.bare :: bareExprs xs

def Block.bare : Block → Block
  | ⟨_, stmts⟩ => ⟨.bare, bareStmts stmts⟩

def Stmt.bare : Stmt → Stmt
  | .expr _ x => .expr .bare x.bare
  | .assign _ lhs op rhs => .assign .bare (bareExprs lhs) op (bareExprs rhs)
  | .incDec _ x increment => .incDec .bare x.bare increment
  | .decl _ d => .decl .bare d.bare
  | .ret _ results => .ret .bare (bareExprs results)
  | .cond _ init test body other =>
    .cond .bare (bareStmt? init) test.bare body.bare (bareStmt? other)
  | .loop _ init test post body =>
    .loop .bare (bareStmt? init) (bareExpr? test) (bareStmt? post) body.bare
  | .range _ key value define x body =>
    .range .bare (bareExpr? key) (bareExpr? value) define x.bare body.bare
  | .switch _ init tag clauses =>
    .switch .bare (bareStmt? init) (bareExpr? tag) (bareClauses clauses)
  | .block _ body => .block .bare body.bare
  | .go _ call => .go .bare call.bare
  | .defer _ call => .defer .bare call.bare
  | .branch _ kind => .branch .bare kind

def bareStmt? : Option Stmt → Option Stmt
  | none => none
  | some s => some s.bare

def bareStmts : List Stmt → List Stmt
  | [] => []
  | s :: ss => s.bare :: bareStmts ss

def bareClauses : List CaseClause → List CaseClause
  | [] => []
  | .case _ values body :: cs => .case .bare (bareExprs values) body.bare :: bareClauses cs
  | .default _ body :: cs => .default .bare body.bare :: bareClauses cs

def Decl.bare : Decl → Decl
  | .types specs => .types (bareTypeSpecs specs)
  | .vars specs => .vars (bareValueSpecs specs)
  | .consts specs => .consts (bareValueSpecs specs)

def TypeSpec.bare : TypeSpec → TypeSpec
  | ⟨_, name, isAlias, ty⟩ => ⟨.bare, name.bare, isAlias, ty.bare⟩

def bareTypeSpecs : List TypeSpec → List TypeSpec
  | [] => []
  | s :: ss => s.bare :: bareTypeSpecs ss

def ValueSpec.bare : ValueSpec → ValueSpec
  | ⟨_, names, ty, values⟩ => ⟨.bare, names.map Ident.bare, bareType? ty, bareExprs values⟩

def bareValueSpecs : List ValueSpec → List ValueSpec
  | [] => []
  | s :: ss => s.bare :: bareValueSpecs ss

end

def FuncDecl.bare (f : FuncDecl) : FuncDecl :=
  ⟨.bare, f.recv.map Field.bare, f.name.bare, f.sig.bare, f.body.map Block.bare⟩

def TopDecl.bare : TopDecl → TopDecl
  | .func f => .func f.bare
  | .decl d => .decl d.bare

def Import.bare (i : Import) : Import := ⟨.bare, i.rename.map Ident.bare, i.path⟩

/-- The file without identities and places. -/
def File.bare (f : File) : File := ⟨f.package.bare, f.imports.map Import.bare, f.decls.map TopDecl.bare, {}⟩

theorem nameList_bare (names : List Ident) : nameList (names.map Ident.bare) = nameList names := by
  rw [nameList, nameList, map_map]
  rfl

theorem Expr.isBinary_bare (x : Expr) : x.bare.isBinary = x.isBinary := by
  cases x <;> simp only [Expr.bare, Expr.isBinary]

theorem Expr.bindsBelow_bare (limit : Nat) (x : Expr) : x.bare.bindsBelow limit = x.bindsBelow limit := by
  cases x <;> simp only [Expr.bare, Expr.bindsBelow]

/-! ## Printing -/

section Render

attribute [local simp] TypeExpr.bare bareType? bareExpr? Field.bare bareFields Signature.bare Expr.bare
  bareExprs Block.bare Stmt.bare bareStmt? bareStmts bareClauses Decl.bare TypeSpec.bare bareTypeSpecs
  ValueSpec.bare bareValueSpecs Ident.bare nameList_bare Expr.isBinary_bare Expr.bindsBelow_bare Block.render
  CaseClause.render Decl.render Expr.render Field.render Field.renderMember Signature.render TypeExpr.render
  TypeSpec.render ValueSpec.render renderClauses renderExprs renderFields renderMembers renderStmts
  renderTypeSpecs renderValueSpecs

mutual

theorem TypeExpr.render_bare (n : Nat) : ∀ ty : TypeExpr, ty.bare.render n = ty.render n
  | .name _ none name | .name _ (some package) name => by simp
  | .pointer _ elem | .slice _ elem | .array _ none elem => by simp [elem.render_bare n]
  | .array _ (some len) elem => by simp [len.render_bare n, elem.render_bare n]
  | .map _ key value => by simp [key.render_bare n, value.render_bare n]
  | .func _ sig => by simp [sig.render_bare n]
  | .struct _ [] => by simp
  | .struct _ (f :: fs) => by simp [f.render_bare (n + 1), renderFields_bare (n + 1) fs]
  | .interface _ [] => by simp
  | .interface _ (f :: fs) => by simp [f.renderMember_bare (n + 1), renderMembers_bare (n + 1) fs]

theorem Field.render_bare (n : Nat) : ∀ f : Field, f.bare.render n = f.render n
  | ⟨_, names, ty, variadic, tag⟩ => by simp [ty.render_bare n]

theorem renderFields_bare (n : Nat) : ∀ fs : List Field, renderFields n (bareFields fs) = renderFields n fs
  | [] => by simp
  | f :: fs => by simp [f.render_bare n, renderFields_bare n fs]

/-- A method stays a method. -/
theorem Field.renderMember_bare (n : Nat) : ∀ f : Field, f.bare.renderMember n = f.renderMember n
  | ⟨_, [], ty, variadic, tag⟩ | ⟨_, _ :: _ :: _, ty, variadic, tag⟩ => by simp [ty.render_bare n]
  | ⟨_, [name], ty, variadic, tag⟩ => by
    have hty := ty.render_bare n
    cases ty with
    | func _ sig =>
      -- the word `func` in front of a signature is the same on both sides
      rw [TypeExpr.bare, TypeExpr.render, TypeExpr.render] at hty
      have hsig := (String.append_right_inj "func").mp hty
      simp [hsig]
    | _ => simp_all

theorem renderMembers_bare (n : Nat) : ∀ fs : List Field, renderMembers n (bareFields fs) = renderMembers n fs
  | [] => by simp
  | f :: fs => by simp [f.renderMember_bare n, renderMembers_bare n fs]

theorem Signature.render_bare (n : Nat) : ∀ sig : Signature, sig.bare.render n = sig.render n
  | ⟨params, results⟩ => by
    have hparams := renderFields_bare n params
    have hresults := renderFields_bare n results
    rw [Signature.bare]
    -- a lone result without a name has no parentheses, every other list has them
    match results, hresults with
    | [], _ => simp [hparams]
    | [⟨_, [], ty, _, _⟩], _ =>
      simp [hparams, ty.render_bare n]
    | ⟨_, _ :: _, ty, _, _⟩ :: rest, hresults | ⟨_, [], ty, _, _⟩ :: _ :: _, hresults =>
      simp at hresults
      simp [hparams, hresults]

theorem Expr.render_bare (n : Nat) : ∀ x : Expr, x.bare.render n = x.render n
  | .ident .. | .lit .. => by simp
  | .composite _ none elts => by simp [renderExprs_bare n elts]
  | .composite _ (some ty) elts => by simp [ty.render_bare n, renderExprs_bare n elts]
  | .funcLit _ sig body => by simp [sig.render_bare n, body.render_bare n]
  | .paren _ x | .unary _ _ x | .selector _ x _ => by simp [x.render_bare n]
  | .index _ x y | .keyValue _ x y | .binary _ _ x y => by simp [x.render_bare n, y.render_bare n]
  | .slice _ x lo hi max => by
    have hlo := renderExpr?_bare n lo
    have hhi := renderExpr?_bare n hi
    have hmax := renderExpr?_bare n max
    rw [Expr.bare]
    unfold Expr.render
    cases lo <;> cases hi <;> cases max <;> simp_all [x.render_bare n]
  | .typeAssert _ x ty => by simp [x.render_bare n, ty.render_bare n]
  | .call _ fn args ellipsis => by simp [fn.render_bare n, renderExprs_bare n args]
  | .type _ ty => by simp [ty.render_bare n]

theorem renderExpr?_bare (n : Nat) : ∀ x : Option Expr, (bareExpr? x).map (Expr.render n) = x.map (Expr.render n)
  | none => by simp
  | some x => by simp [x.render_bare n]

theorem renderExprs_bare (n : Nat) : ∀ xs : List Expr, renderExprs n (bareExprs xs) = renderExprs n xs
  | [] => by simp
  | x :: xs => by simp [x.render_bare n, renderExprs_bare n xs]

theorem Block.render_bare (n : Nat) : ∀ b : Block, b.bare.render n = b.render n
  | ⟨_, stmts⟩ => by simp [renderStmts_bare (n + 1) stmts]

theorem renderStmts_bare (n : Nat) : ∀ ss : List Stmt, renderStmts n (bareStmts ss) = renderStmts n ss
  | [] => by simp
  | s :: ss => by simp [s.render_bare n, renderStmts_bare n ss]

theorem Stmt.render_bare (n : Nat) : ∀ s : Stmt, s.bare.render n = s.render n
  | .expr _ x | .incDec _ x _ | .go _ x | .defer _ x => by
    rw [Stmt.bare]
    unfold Stmt.render
    simp [x.render_bare n]
  | .assign _ lhs op rhs => by
    rw [Stmt.bare]
    unfold Stmt.render
    simp [renderExprs_bare n lhs, renderExprs_bare n rhs]
  | .decl _ d => by
    rw [Stmt.bare]
    unfold Stmt.render
    simp [d.render_bare n]
  | .ret _ [] => by
    rw [Stmt.bare, bareExprs]
    rfl
  | .ret _ (x :: xs) => by
    rw [Stmt.bare, bareExprs]
    unfold Stmt.render
    simp [x.render_bare n, renderExprs_bare n xs]
  | .cond _ init test body other => by
    have hinit := renderStmt?_bare n init
    have hother := renderStmt?_bare n other
    rw [Stmt.bare]
    unfold Stmt.render
    cases init <;> cases other <;> simp_all [test.render_bare n, body.render_bare n]
  | .loop _ init test post body => by
    have hinit := renderStmt?_bare n init
    have htest := renderExpr?_bare n test
    have hpost := renderStmt?_bare n post
    rw [Stmt.bare]
    unfold Stmt.render
    -- which of the three forms is printed depends on the parts that are there
    cases init <;> cases test <;> cases post <;> simp_all [body.render_bare n]
  | .range _ key value define x body => by
    have hkey := renderExpr?_bare n key
    have hvalue := renderExpr?_bare n value
    rw [Stmt.bare]
    unfold Stmt.render
    cases key <;> cases value <;> simp_all [x.render_bare n, body.render_bare n]
  | .switch _ init tag clauses => by
    have hinit := renderStmt?_bare n init
    have htag := renderExpr?_bare n tag
    rw [Stmt.bare]
    unfold Stmt.render
    cases init <;> cases tag <;> simp_all [renderClauses_bare n clauses]
  | .block _ body => by
    rw [Stmt.bare]
    unfold Stmt.render
    simp [body.render_bare n]
  | .branch .. => by
    rw [Stmt.bare]
    rfl

theorem renderStmt?_bare (n : Nat) : ∀ s : Option Stmt, (bareStmt? s).map (Stmt.render n) = s.map (Stmt.render n)
  | none => by simp
  | some s => by simp [s.render_bare n]

theorem renderClauses_bare (n : Nat) : ∀ cs : List CaseClause, renderClauses n (bareClauses cs) = renderClauses n cs
  | [] => by simp
  | .case _ values ⟨_, stmts⟩ :: cs => by
    simp [renderExprs_bare n values, renderStmts_bare (n + 1) stmts, renderClauses_bare n cs]
  | .default _ ⟨_, stmts⟩ :: cs => by simp [renderStmts_bare (n + 1) stmts, renderClauses_bare n cs]

theorem Decl.render_bare (n : Nat) : ∀ d : Decl, d.bare.render n = d.render n
  | .types [] | .vars [] | .consts [] => by simp
  | .types [s] | .vars [s] | .consts [s] => by simp [s.render_bare n]
  | .types (s :: s' :: ss) => by
    simp [s.render_bare (n + 1), s'.render_bare (n + 1), renderTypeSpecs_bare (n + 1) ss]
  | .vars (s :: s' :: ss) | .consts (s :: s' :: ss) => by
    simp [s.render_bare (n + 1), s'.render_bare (n + 1), renderValueSpecs_bare (n + 1) ss]

theorem TypeSpec.render_bare (n : Nat) : ∀ s : TypeSpec, s.bare.render n = s.render n
  | ⟨_, name, isAlias, ty⟩ => by simp [ty.render_bare n]

theorem renderTypeSpecs_bare (n : Nat) :
    ∀ ss : List TypeSpec, renderTypeSpecs n (bareTypeSpecs ss) = renderTypeSpecs n ss
  | [] => by simp
  | s :: ss => by simp [s.render_bare n, renderTypeSpecs_bare n ss]

theorem ValueSpec.render_bare (n : Nat) : ∀ s : ValueSpec, s.bare.render n = s.render n
  | ⟨_, names, none, []⟩ => by simp
  | ⟨_, names, some ty, []⟩ => by simp [ty.render_bare n]
  | ⟨_, names, none, x :: xs⟩ => by
    simp [x.render_bare n, renderExprs_bare n xs]
  | ⟨_, names, some ty, x :: xs⟩ => by
    simp [ty.render_bare n, x.render_bare n, renderExprs_bare n xs]

theorem renderValueSpecs_bare (n : Nat) :
    ∀ ss : List ValueSpec, renderValueSpecs n (bareValueSpecs ss) = renderValueSpecs n ss
  | [] => by simp
  | s :: ss => by simp [s.render_bare n, renderValueSpecs_bare n ss]

end

end Render

theorem FuncDecl.print_bare (f : FuncDecl) : f.bare.print = f.print := by
  obtain ⟨info, recv, name, sig, body⟩ := f
  cases recv <;> cases body <;> simp only [FuncDecl.bare, FuncDecl.print, Option.map_none, Option.map_some, Ident.bare,
      Field.render_bare, Signature.render_bare, Block.render_bare]

theorem TopDecl.print_bare (d : TopDecl) : d.bare.print = d.print := by
  cases d with
  | func f => exact f.print_bare
  | decl d => exact d.render_bare 0

theorem Import.print_bare (i : Import) : i.bare.print = i.print := by
  obtain ⟨info, rename, path⟩ := i
  cases rename <;> rfl

theorem printImports_bare (is : List Import) : printImports (is.map Import.bare) = printImports is := by
  match is with
  | [] => rfl
  | [i] => simp only [map_cons, map_nil, printImports, i.print_bare]
  | i :: i' :: is =>
    have same : Import.print ∘ Import.bare = Import.print := funext Import.print_bare
    simp only [map_cons, map_map, printImports, i.print_bare, i'.print_bare, same]

/-- **Printing looks at nothing else.** A file has the text of its bare tree. -/
theorem File.print_bare (f : File) : f.bare.print = f.print := by
  have decls : (f.decls.map TopDecl.bare).map (fun d => "\n" ++ d.print ++ "\n") =
      f.decls.map fun d => "\n" ++ d.print ++ "\n" := by
    rw [map_map]
    exact map_congr_left fun d _ => by rw [Function.comp_apply, d.print_bare]
  rw [File.print, File.print, File.bare]
  dsimp only [Ident.bare]
  rw [printImports_bare, decls]

theorem File.print_eq_of_bare {f g : File} (h : f.bare = g.bare) : f.print = g.print := by
  rw [← f.print_bare, ← g.print_bare, h]

/-! ## What is read back -/

/-- The text is read as a file with the property. -/
def readsAs (text : String) (holds : File → Bool) : Bool :=
  match parseFile text 0 with
  | .ok (f, _) => holds f
  | .error _ => false

theorem exists_of_readsAs {text : String} {holds : File → Bool} (h : readsAs text holds = true) :
    ∃ f n, parseFile text 0 = .ok (f, n) ∧ holds f = true := by
  unfold readsAs at h
  split at h
  · rename_i f n hparse
    exact ⟨f, n, hparse, h⟩
  · cases h

/-- Which results of the functions of a file are variadic. -/
def File.variadicResults (f : File) : List Bool := f.decls.flatMap fun d =>
    match d with
    | .func g => g.sig.results.map Field.variadic
    | .decl _ => []

theorem variadic_bareFields (fs : List Field) : (bareFields fs).map Field.variadic = fs.map Field.variadic := by
  induction fs with
  | nil => simp only [bareFields]
  | cons f fs ih =>
    obtain ⟨info, names, ty, variadic, tag⟩ := f
    simp only [bareFields, map_cons, ih, Field.bare]

theorem File.variadicResults_bare (f : File) : f.bare.variadicResults = f.variadicResults := by
  unfold File.variadicResults File.bare
  rw [flatMap_map]
  congr 1
  funext d
  cases d with
  | func g =>
    obtain ⟨info, recv, name, ⟨params, results⟩, body⟩ := g
    exact variadic_bareFields results
  | decl d => rfl

/-- **Printing cannot be undone.** It looks at the bare file only, so that files
which are equal up to identities and places print alike; but it does not keep all
of it, so that every reader of printed files, however it reads, misses the bare
file of some text that `parseFile` reads. -/
theorem print_not_undone (read : String → Option File) : (∀ f : File, f.bare.print = f.print) ∧
    ∃ text f n, parseFile text 0 = .ok (f, n) ∧ (read f.print).map File.bare ≠ some f.bare := by
  refine ⟨File.print_bare, ?_⟩
  -- two readable texts with one printed form, told apart by the result they declare
  have dotted : readsAs "package p\nfunc f() (...int)\n" (fun f =>
      f.print == "package p\n\nfunc f() int\n" && f.variadicResults == [true]) = true := by
    decide +kernel
  have plain : readsAs "package p\nfunc f() int\n" (fun f =>
      f.print == "package p\n\nfunc f() int\n" && f.variadicResults == [false]) = true := by
    decide +kernel
  obtain ⟨f, n, hf, holds⟩ := exists_of_readsAs dotted
  obtain ⟨g, m, hg, holds'⟩ := exists_of_readsAs plain
  simp only [Bool.and_eq_true, beq_iff_eq] at holds holds'
  have apart : f.bare ≠ g.bare := by
    intro same
    have := congrArg File.variadicResults same
    rw [File.variadicResults_bare, File.variadicResults_bare, holds.2, holds'.2] at this
    cases this
  by_cases back : (read f.print).map File.bare = some f.bare
  · refine ⟨_, g, m, hg, fun back' => apart ?_⟩
    rw [holds'.1, ← holds.1, back] at back'
    exact Option.some.inj back'
  · exact ⟨_, f, n, hf, back⟩

/-- A conversion to a slice of functions is printed without the parentheses around
the function type. What is read back is a slice of functions with a result. -/
theorem print_conversion_misread : ∃ f n f' m, parseFile "package p\nvar x = [](func())(y)\n" 0 = .ok (f, n) ∧
      f.print = "package p\n\nvar x = []func()(y)\n" ∧ parseFile f.print 0 = .ok (f', m) ∧
      f'.print = "package p\n\nvar x = []func() y\n" ∧ f'.bare ≠ f.bare := by
  have written : readsAs "package p\nvar x = [](func())(y)\n" (fun f =>
      f.print == "package p\n\nvar x = []func()(y)\n") = true := by decide +kernel
  have again : readsAs "package p\n\nvar x = []func()(y)\n" (fun f =>
      f.print == "package p\n\nvar x = []func() y\n") = true := by decide +kernel
  obtain ⟨f, n, hf, holds⟩ := exists_of_readsAs written
  obtain ⟨f', m, hf', holds'⟩ := exists_of_readsAs again
  have hprint := eq_of_beq holds
  have hprint' := eq_of_beq holds'
  refine ⟨f, n, f', m, hf, hprint, by rw [hprint]; exact hf', hprint', fun same => ?_⟩
  have := File.print_eq_of_bare same
  rw [hprint, hprint'] at this
  exact absurd this (by decide)

end CheckHandle
