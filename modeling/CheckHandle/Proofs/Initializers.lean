import Mathlib
import CheckHandle.Checker.Pass

/-!
# The order of package variables

The values of package variables are typed in two passes over the files. A
variable that starts as a copy of another one gets its type as soon as that one
has it: in the same pass if the other one is declared above it, in the next pass
if it is declared below. Main statement: the passes type those variables from
which one comes to a literal with at most one step down, and no others.
-/

namespace CheckHandle

/-- What a variable starts with. -/
inductive Start where
  | literal (kind : LitKind) (text : String)
  | copy (name : String)

/-- A package variable. -/
structure Variable where
  info : Info
  name : Ident
  start : Start
  /-- The node of its value. -/
  node : Info

namespace Variable

def value (v : Variable) : Expr :=
  match v.start with
  | .literal kind text => .lit v.node kind text
  | .copy name => .ident v.node name

def decl (v : Variable) : TopDecl := .decl (.vars [⟨v.info, [v.name], none, [v.value]⟩])

/-- The type that the value of a variable of type `b` has. -/
def valueType (v : Variable) (b : Basic) : Ty :=
  match v.start with
  | .literal kind _ => .basic kind.basic
  | .copy _ => .basic b

end Variable

/-- Package variables that can be told apart. Each is a literal or a copy of one
of them. -/
structure Variables where
  list : List Variable
  names : (list.map fun v => v.name.name).Nodup
  nodes : (list.map fun v => v.node.id).Nodup
  own : ∀ v ∈ list, v.name.name ≠ "_" ∧ universeObject? v.name.name = none
  copies : ∀ v ∈ list, ∀ name, v.start = .copy name → name ∈ list.map fun v => v.name.name

/-- What tells variables apart tells their numbers. -/
theorem getElem?_inj_of_map {α : Type} {f : Variable → α} {vs : List Variable} {i j : Nat} {v w : Variable}
    (distinct : (vs.map f).Nodup) (hv : vs[i]? = some v) (hw : vs[j]? = some w) (same : f v = f w) : i = j := by
  have bound : i < (vs.map f).length := by
    rw [List.length_map]
    exact (List.getElem?_eq_some_iff.mp hv).1
  exact (List.getElem?_inj bound distinct).mp (by simp [hv, hw, same])

/-- From variable number `i` one comes to a literal of the type with at most `n`
steps down. -/
inductive Settles (vs : List Variable) : Nat → Nat → Basic → Prop
  | literal {n i : Nat} {v : Variable} {kind text} : vs[i]? = some v → v.start = .literal kind text →
      Settles vs n i kind.basic.defaulted
  | up {n i j : Nat} {v w : Variable} {b} : vs[i]? = some v → vs[j]? = some w → v.start = .copy w.name.name → j < i →
      Settles vs n j b → Settles vs n i b
  | down {n i j : Nat} {v w : Variable} {b} : vs[i]? = some v → vs[j]? = some w → v.start = .copy w.name.name → i < j →
      Settles vs n j b → Settles vs (n + 1) i b

/-- The same when pass `n` has come to variable number `i`. -/
def SettledBy (vs : List Variable) (n i j : Nat) (b : Basic) : Prop :=
  if j < i then Settles vs n j b else ∃ m, n = m + 1 ∧ Settles vs m j b

section Settles

variable {vs : Variables} {v w : Variable} {n i j : Nat} {b : Basic} {kind : LitKind} {text : String}

theorem Settles.defaulted {vs : List Variable} (h : Settles vs n i b) : b.defaulted = b := by
  induction h with
  | @literal _ _ _ kind _ _ _ => cases kind <;> rfl
  | up _ _ _ _ _ ih => exact ih
  | down _ _ _ _ _ ih => exact ih

theorem Settles.succ {vs : List Variable} (h : Settles vs n i b) : Settles vs (n + 1) i b := by
  induction h with
  | literal hv start => exact .literal hv start
  | up hv hw start lt _ ih => exact .up hv hw start lt ih
  | down hv hw start lt _ ih => exact .down hv hw start lt ih

theorem settles_literal (hv : vs.list[i]? = some v) (start : v.start = .literal kind text) :
    Settles vs.list n i b ↔ b = kind.basic.defaulted := by
  constructor
  · intro h
    cases h with
    | literal hv' start' =>
      cases hv.symm.trans hv'
      cases start.symm.trans start'
      rfl
    | up hv' _ start' | down hv' _ start' => cases hv.symm.trans hv'; cases start.symm.trans start'
  · rintro rfl
    exact .literal hv start

/-- A copy settles with what it is a copy of, as far as that is known. -/
theorem settles_copy (hv : vs.list[i]? = some v) (hw : vs.list[j]? = some w)
    (start : v.start = .copy w.name.name) : Settles vs.list n i b ↔ SettledBy vs.list n i j b := by
  unfold SettledBy
  constructor
  · intro h
    cases h with
    | literal hv' start' => cases hv.symm.trans hv'; cases start.symm.trans start'
    | up hv' hw' start' lt h =>
      cases hv.symm.trans hv'
      cases getElem?_inj_of_map vs.names hw hw' (Start.copy.inj (start.symm.trans start'))
      rwa [if_pos lt]
    | down hv' hw' start' lt h =>
      cases hv.symm.trans hv'
      cases getElem?_inj_of_map vs.names hw hw' (Start.copy.inj (start.symm.trans start'))
      rw [if_neg (by omega)]
      exact ⟨_, rfl, h⟩
  · intro h
    split at h
    · rename_i lt
      exact .up hv hw start lt h
    · obtain ⟨m, rfl, h⟩ := h
      rcases Nat.lt_or_eq_of_le (Nat.not_lt.mp ‹_›) with lt | rfl
      · exact .down hv hw start lt h
      · exact h.succ

end Settles

/-! ## One declaration -/

/-- The variable is declared with a type or without one. -/
structure Declares (v : Variable) (t : Option Basic) (c c' : Checker) : Prop where
  locals : c'.locals = c.locals
  imports : c'.fileScope = c.fileScope
  scope : c'.packageScope = (v.name.name, .var (t.map .basic)) :: c.packageScope
  types : c'.info.types =
    match t with
    | some b => c.info.types.insert v.node.id (v.valueType b)
    | none => c.info.types

section Declares

variable {v : Variable} {c : Checker} {b : Basic} {kind : LitKind} {text name : String}

attribute [local simp] bind StateT.bind pure StateT.pure modify modifyGet MonadStateOf.modifyGet StateT.modifyGet get
  getThe MonadStateOf.get StateT.get recordOperand assignedTypes singleType declareValues Operand.value? Object.operand?
  Ty.defaulted Expr.info Checker.declare Checker.declareInPackage Checker.recordType Checker.recordUse

theorem declares_literal (own : v.name.name ≠ "_") (start : v.start = .literal kind text) :
    Declares v (some kind.basic.defaulted) c (declarePackageValues v.decl c).2 := by
  have run : declarePackageValues v.decl c = ((), (c.recordType v.node.id (.basic kind.basic)).declare false
      v.name.name (.var (some (.basic kind.basic.defaulted)))) := by
    have twice : kind.basic.defaulted.defaulted = kind.basic.defaulted := by cases kind <;> rfl
    simp only [Variable.decl, Variable.value, start, declarePackageValues, checkValueSpecs, checkExprs, checkOperand]
    simp [twice]
  rw [run]
  constructor <;> simp [own, Variable.valueType, start]

theorem declares_copy (own : v.name.name ≠ "_") (start : v.start = .copy name) (named : name ≠ "_")
    (found : c.lookup name = some (.var (some (.basic b)))) (defaulted : b.defaulted = b) :
    Declares v (some b) c (declarePackageValues v.decl c).2 := by
  have run : declarePackageValues v.decl c = ((), ((c.recordUse v.node.id (.var (some (.basic b)))).recordType
      v.node.id (.basic b)).declare false v.name.name (.var (some (.basic b)))) := by
    simp only [Variable.decl, Variable.value, start, declarePackageValues, checkValueSpecs, checkExprs, checkOperand,
      useIdent]
    simp [named, found, defaulted]
  rw [run]
  constructor <;> simp [own, Variable.valueType, start]

theorem declares_untyped (own : v.name.name ≠ "_") (start : v.start = .copy name) (named : name ≠ "_")
    (found : c.lookup name = none ∨ c.lookup name = some (.var none)) :
    Declares v none c (declarePackageValues v.decl c).2 := by
  simp only [Variable.decl, Variable.value, start, declarePackageValues, checkValueSpecs, checkExprs, checkOperand,
    useIdent]
  rcases found with found | found
  all_goals
    simp [named, found]
    constructor <;> simp [own, Checker.diagnose]

end Declares

/-! ## Passes -/

/-- What is known of the variables when pass `n` has come to variable number `i`. -/
structure KnownAt (vs : Variables) (n i : Nat) (c : Checker) : Prop where
  locals : c.locals = []
  imports : c.fileScope = []
  typed : ∀ (j : Nat) v b, vs.list[j]? = some v → SettledBy vs.list n i j b →
    c.packageScope.lookup v.name.name = some (.var (some (.basic b))) ∧
      c.info.types.get? v.node.id = some (v.valueType b)
  untyped : ∀ (j : Nat) v, vs.list[j]? = some v → (∀ b, ¬ SettledBy vs.list n i j b) →
    (c.packageScope.lookup v.name.name = none ∨ c.packageScope.lookup v.name.name = some (.var none)) ∧
      c.info.types.get? v.node.id = none

namespace KnownAt

variable {vs : Variables} {v : Variable} {n i : Nat} {c : Checker} {files : List SourceFile}

/-- The type of the next variable. -/
theorem declares (h : KnownAt vs n i c) (hv : vs.list[i]? = some v) :
    ∃ t, Declares v t c (declarePackageValues v.decl c).2 ∧ ∀ b, t = some b ↔ Settles vs.list n i b := by
  have mem := List.mem_of_getElem? hv
  have own := (vs.own v mem).1
  cases start : v.start with
  | literal kind text =>
    refine ⟨_, declares_literal own start, fun b => ?_⟩
    rw [settles_literal hv start, Option.some.injEq, eq_comm]
  | copy name =>
    obtain ⟨w, hmem, rfl⟩ := List.mem_map.mp (vs.copies v mem name start)
    obtain ⟨j, hw⟩ := List.mem_iff_getElem?.mp hmem
    obtain ⟨named, free⟩ := vs.own w (List.mem_of_getElem? hw)
    have lookup : c.lookup w.name.name = c.packageScope.lookup w.name.name := by
      simp [Checker.lookup, h.locals, h.imports, free]
    by_cases settled : ∃ b, SettledBy vs.list n i j b
    · obtain ⟨b, settled⟩ := settled
      have found := (h.typed j w b hw settled).1
      have settles := (settles_copy hv hw start).mpr settled
      refine ⟨_, declares_copy own start named (lookup.trans found) settles.defaulted, fun b' => ?_⟩
      constructor
      · rintro ⟨⟩
        exact settles
      · intro settles'
        have found' := (h.typed j w b' hw ((settles_copy hv hw start).mp settles')).1
        simpa [found] using found'
    · have settled : ∀ b, ¬ SettledBy vs.list n i j b := fun b hb => settled ⟨b, hb⟩
      refine ⟨none, declares_untyped own start named (lookup ▸ (h.untyped j w hw settled).1), fun b => ?_⟩
      simp [settles_copy hv hw start, settled]

/-- **One declaration** settles one variable more. -/
theorem step (h : KnownAt vs n i c) (hv : vs.list[i]? = some v) :
    KnownAt vs n (i + 1) (declarePackageValues v.decl c).2 := by
  obtain ⟨t, declared, settles⟩ := h.declares hv
  have here : ∀ b, SettledBy vs.list n (i + 1) i b ↔ Settles vs.list n i b := by simp [SettledBy]
  have there : ∀ {j : Nat} {b}, j ≠ i → (SettledBy vs.list n (i + 1) j b ↔ SettledBy vs.list n i j b) := by
    intro j b ne
    simp only [SettledBy, show j < i + 1 ↔ j < i by omega]
  -- Other variables have other names and nodes.
  have scope : ∀ {j : Nat} {w : Variable}, vs.list[j]? = some w → j ≠ i →
      (declarePackageValues v.decl c).2.packageScope.lookup w.name.name = c.packageScope.lookup w.name.name := by
    intro j w hw ne
    have other : (w.name.name == v.name.name) = false := by
      simpa using fun same => ne (getElem?_inj_of_map vs.names hw hv same)
    rw [declared.scope, List.lookup_cons, other]
  have types : ∀ {j : Nat} {w : Variable}, vs.list[j]? = some w → j ≠ i →
      (declarePackageValues v.decl c).2.info.types.get? w.node.id = c.info.types.get? w.node.id := by
    intro j w hw ne
    have other : v.node.id ≠ w.node.id := fun same => ne (getElem?_inj_of_map vs.nodes hw hv same.symm)
    rw [declared.types]
    cases t with
    | none => rfl
    | some b => simp [Std.TreeMap.getElem?_insert, other]
  refine ⟨declared.locals.trans h.locals, declared.imports.trans h.imports, ?_, ?_⟩
  · intro j w b hw settled
    by_cases ne : j = i
    · subst ne
      cases hv.symm.trans hw
      have ht := (settles b).mpr ((here b).mp settled)
      subst ht
      simp [declared.scope, declared.types]
    · rw [scope hw ne, types hw ne]
      exact h.typed j w b hw ((there ne).mp settled)
  · intro j w hw settled
    by_cases ne : j = i
    · subst ne
      cases hv.symm.trans hw
      have ht : t = none := by
        cases t with
        | none => rfl
        | some b => exact absurd ((here b).mpr ((settles b).mp rfl)) (settled b)
      subst ht
      -- Nothing was recorded in an earlier pass either.
      have before : ∀ b, ¬ SettledBy vs.list n j j b := by
        intro b hb
        simp only [SettledBy, Nat.lt_irrefl, if_false] at hb
        obtain ⟨m, rfl, hb⟩ := hb
        exact settled b ((here b).mpr hb.succ)
      rw [declared.scope, declared.types]
      exact ⟨.inr (by simp), (h.untyped j v hv before).2⟩
    · rw [scope hw ne, types hw ne]
      exact h.untyped j w hw fun b hb => settled b ((there ne).mpr hb)

theorem enter (h : KnownAt vs n i c) {f : SourceFile} (imports : f.tree.imports = []) :
    KnownAt vs n i (enterFile f c).2 :=
  ⟨h.locals, by
    show List.reverse _ = []
    rw [imports]
    rfl, h.typed, h.untyped⟩

/-- The declarations of a file. -/
theorem decls {ds more : List TopDecl} (h : KnownAt vs n i c) (left : (vs.list.drop i).map Variable.decl = ds ++ more) :
    ∃ i', (vs.list.drop i').map Variable.decl = more ∧ KnownAt vs n i' (ds.forM declarePackageValues c).2 := by
  induction ds generalizing i c with
  | nil => exact ⟨i, left, h⟩
  | cons d ds ih =>
    obtain ⟨v, rest, hdrop, rfl, hrest⟩ := List.map_eq_cons_iff.mp left
    have hv : vs.list[i]? = some v := by
      rw [← List.head?_drop, hdrop, List.head?_cons]
    have after : rest = vs.list.drop (i + 1) := by
      rw [← List.tail_drop, hdrop, List.tail_cons]
    exact ih (h.step hv) (after ▸ hrest)

/-- **A pass over the files.** -/
theorem pass (h : KnownAt vs n i c) (imports : ∀ f ∈ files, f.tree.imports = [])
    (left : (vs.list.drop i).map Variable.decl = files.flatMap fun f => f.tree.decls) :
    ∃ i', vs.list.length ≤ i' ∧ KnownAt vs n i' (overFiles files declarePackageValues c).2 := by
  induction files generalizing i c with
  | nil => exact ⟨i, by simpa using left, h⟩
  | cons f files ih =>
    obtain ⟨here, imports⟩ := List.forall_mem_cons.mp imports
    obtain ⟨j, left, hj⟩ := (h.enter here).decls left
    exact ih hj imports left

theorem next (h : KnownAt vs n i c) (all : vs.list.length ≤ i) : KnownAt vs (n + 1) 0 c := by
  have same : ∀ {j : Nat} {w : Variable} {b}, vs.list[j]? = some w →
      (SettledBy vs.list (n + 1) 0 j b ↔ SettledBy vs.list n i j b) := by
    intro j w b hw
    have := (List.getElem?_eq_some_iff.mp hw).1
    simp [SettledBy, show j < i by omega]
  exact ⟨h.locals, h.imports, fun j w b hw hb => h.typed j w b hw ((same hw).mp hb),
    fun j w hw hb => h.untyped j w hw fun b hs => hb b ((same hw).mpr hs)⟩

/-- A pass that does not look at variables. -/
theorem idle (h : KnownAt vs n i c) {step : TopDecl → CheckM Unit} (imports : ∀ f ∈ files, f.tree.imports = [])
    (skips : ∀ f ∈ files, ∀ d ∈ f.tree.decls, step d = pure ()) : KnownAt vs n i (overFiles files step c).2 := by
  induction files generalizing c with
  | nil => exact h
  | cons f files ih =>
    obtain ⟨here, imports⟩ := List.forall_mem_cons.mp imports
    obtain ⟨skip, skips⟩ := List.forall_mem_cons.mp skips
    refine ih (c := (f.tree.decls.forM step (enterFile f c).2).2) ?_ imports skips
    generalize f.tree.decls = ds at skip
    induction ds with
    | nil => exact h.enter here
    | cons d ds ihd =>
      obtain ⟨hd, skip⟩ := List.forall_mem_cons.mp skip
      show KnownAt vs n i ((step d >>= fun _ => ds.forM step) (enterFile f c).2).2
      rw [hd]
      exact ihd skip

end KnownAt

/-- **Which variables are typed.** Whatever the order of the variables and their
distribution over files is, the value of a variable has a type if and only if
one comes from it to a literal with at most one step down. -/
theorem check_variables (vs : Variables) (stubs : StubSet) (p : Package) (imports : ∀ f ∈ p.files, f.tree.imports = [])
    (decls : vs.list.map Variable.decl = p.files.flatMap fun f => f.tree.decls) {i : Nat} {v : Variable}
    (hv : vs.list[i]? = some v) (t : Ty) :
    (stubs.check p).typeOf v.node.id = some t ↔ ∃ b, Settles vs.list 1 i b ∧ t = v.valueType b := by
  have single : ∀ f ∈ p.files, ∀ d ∈ f.tree.decls, ∃ v : Variable, d = v.decl := by
    intro f hf d hd
    have : d ∈ vs.list.map Variable.decl := decls ▸ List.mem_flatMap.mpr ⟨f, hf, hd⟩
    obtain ⟨v, -, rfl⟩ := List.mem_map.mp this
    exact ⟨v, rfl⟩
  have skips : ∀ step : TopDecl → CheckM Unit, (∀ v : Variable, step v.decl = pure ()) →
      ∀ f ∈ p.files, ∀ d ∈ f.tree.decls, step d = pure () := by
    intro step hstep f hf d hd
    obtain ⟨v, rfl⟩ := single f hf d hd
    exact hstep v
  have start : KnownAt vs 0 0 (Checker.start stubs p.name) :=
    ⟨rfl, rfl, fun j w b _ hb => by simp [SettledBy] at hb, fun j w _ _ => ⟨.inl rfl, rfl⟩⟩
  have declared := ((start.idle imports (skips declareTypeNames fun v => rfl)).idle imports
    (skips declareTypes fun v => rfl)).idle imports (skips declareFunc fun v => rfl)
  obtain ⟨i₁, all₁, first⟩ := declared.pass imports decls
  obtain ⟨i₂, all₂, second⟩ := (first.next all₁).pass imports decls
  have final : KnownAt vs 1 i₂ (checkPackageM p.files (Checker.start stubs p.name)).2 :=
    second.idle imports (skips checkFuncBody fun v => rfl)
  have settled : ∀ b, SettledBy vs.list 1 i₂ i b ↔ Settles vs.list 1 i b := by
    have := (List.getElem?_eq_some_iff.mp hv).1
    simp [SettledBy, show i < i₂ by omega]
  show (checkPackageM p.files (Checker.start stubs p.name)).2.info.types.get? v.node.id = some t ↔ _
  by_cases some : ∃ b, Settles vs.list 1 i b
  · obtain ⟨b, hb⟩ := some
    rw [(final.typed i v b hv ((settled b).mpr hb)).2, Option.some.injEq]
    constructor
    · rintro rfl
      exact ⟨b, hb, rfl⟩
    · rintro ⟨b', hb', rfl⟩
      have := (final.typed i v b hv ((settled b).mpr hb)).2
      rw [(final.typed i v b' hv ((settled b').mpr hb')).2] at this
      exact (Option.some.inj this).symm
  · rw [(final.untyped i v hv fun b hb => some ⟨b, (settled b).mp hb⟩).2]
    constructor
    · intro h
      cases h
    · rintro ⟨b, hb, -⟩
      exact absurd ⟨b, hb⟩ some

/-- Three variables, `a` a copy of `b`, `b` a copy of `c`. -/
def chain (k : Nat) : Variable :=
  ⟨⟨3 * k, {}⟩, ⟨⟨3 * k + 1, {}⟩, if k = 0 then "a" else if k = 1 then "b" else "c"⟩,
    if k = 0 then .copy "b" else if k = 1 then .copy "c" else .literal .int "1", ⟨3 * k + 2, {}⟩⟩

def rising : Variables where
  list := [chain 2, chain 1, chain 0]
  names := by decide
  nodes := by decide
  own := by decide
  copies := by simp [chain]

def falling : Variables where
  list := [chain 0, chain 1, chain 2]
  names := by decide
  nodes := by decide
  own := by decide
  copies := by simp [chain]

def Variables.package (vs : Variables) : Package :=
  ⟨"main", [⟨"a.go", "", none, ⟨⟨⟨9, {}⟩, "main"⟩, [], vs.list.map Variable.decl, {}⟩⟩], 10⟩

/-- The same variables in two orders. -/
theorem check_variables_chain :
    (({} : StubSet).check rising.package).typeOf 2 = some (.basic .int) ∧
      (({} : StubSet).check falling.package).typeOf 2 = none := by
  constructor
  · refine (check_variables rising {} rising.package (by simp [Variables.package])
      (by simp [Variables.package]) (i := 2) (v := chain 0) rfl _).mpr ⟨.int, ?_, rfl⟩
    have last : Settles rising.list 1 0 .int := .literal (v := chain 2) rfl rfl
    have middle : Settles rising.list 1 1 .int := .up (v := chain 1) (w := chain 2) rfl rfl rfl (by decide) last
    exact .up (v := chain 0) (w := chain 1) rfl rfl rfl (by decide) middle
  · have untyped : ∀ b, ¬ Settles falling.list 1 0 b := by
      intro b h
      rw [settles_copy (v := chain 0) (w := chain 1) (j := 1) rfl rfl rfl] at h
      obtain ⟨m, hm, h⟩ : ∃ m, 1 = m + 1 ∧ Settles falling.list m 1 b := by simpa [SettledBy] using h
      cases hm
      rw [settles_copy (v := chain 1) (w := chain 2) (j := 2) rfl rfl rfl] at h
      simp [SettledBy] at h
    cases h : (({} : StubSet).check falling.package).typeOf 2 with
    | none => rfl
    | some t =>
      obtain ⟨b, hb, -⟩ := (check_variables falling {} falling.package (by simp [Variables.package])
        (by simp [Variables.package]) (i := 0) (v := chain 0) rfl t).mp h
      exact absurd hb (untyped b)

end CheckHandle
