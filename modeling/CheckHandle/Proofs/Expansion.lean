import CheckHandle.Check.Expansion
import CheckHandle.Proofs.Handling

/-!
# One step of a pass

What a pass may answer at an expression: leave it, note that it has to wait, or
expand it. An expansion is described by the nodes that are made for it, all of
them new.
-/

namespace CheckHandle

open Std List

/-- The nodes made for one check. -/
structure Expanded where
  /-- What the results are bound to, the error last. -/
  names : List Expr
  /-- The node of the definition. -/
  define : Info
  /-- The conditional that handles the error. -/
  guard : Stmt
  /-- What stands in the place of the check, unless it was a statement. -/
  uses : Option (List Expr)

namespace Expanded

/-- What goes before the statement of a check of `operand`. -/
def prelude (e : Expanded) (operand : Expr) : List Stmt := [.assign e.define e.names .define [operand], e.guard]

def action (e : Expanded) : ExprAction :=
  match e.uses with
  | none => .keep
  | some [x] => .replace x
  | some xs => .splice xs

def count (i : NodeId) (e : Expanded) : Nat :=
  countExprs i e.names + e.define.count i + e.guard.count i + countExprs i (e.uses.getD [])

end Expanded

/-- The names that stand for a check, given those of its results: all values of
several, the only value, or the error if there is none. -/
def Slot.placed : Slot → (values : List String) → (errVar : String) → Option (List String)
  | .statement, _, _ => none
  | _, values, errVar => some (if 2 ≤ values.length then values else [values.headD errVar])

namespace Expanded

/-- `e` is what becomes of the check of `binding` in `slot`, if its results get
these names and its nodes the identities from `n` to `n'`. -/
structure Made (info : TypeInfo) (collected : Collected) (binding : CheckBinding) (slot : Slot)
    (values : List String) (errVar : String) (n n' : NodeId) (e : Expanded) : Prop where
  fresh : ∀ i, e.count i + spare n' i ≤ spare n i
  prelude : ∃ n₁, ∀ operand, checkPrelude info collected binding values errVar operand n₁ = (e.prelude operand, n')
  uses : e.uses = none ↔ slot = .statement
  single : slot = .single → ∃ u, e.uses = some [u]
  named : ∀ u ∈ e.uses.getD [], ∃ name ∈ values ++ [errVar], u.ident? = some name
  placed : e.uses.map (List.map Expr.ident?) = (slot.placed values errVar).map (List.map some)

end Expanded

/-! ## What one check becomes -/

variable {n n' : NodeId} {x : Expr} {names values kinds : List String} {info : TypeInfo}
  {binding : CheckBinding} {errVar : String} {s s' : Expanding} {slot : Slot} {action : ExprAction}
  {ty : Ty}

theorem Expr.fresh_eq {name : String} (h : Expr.fresh name n = (x, n')) : ∃ info, x = .ident info name := by
  cases h
  exact ⟨_, rfl⟩

theorem mapM_fresh_ident? {xs : List Expr} (h : names.mapM Expr.fresh n = (xs, n')) :
    xs.map Expr.ident? = names.map some := by
  induction names generalizing n n' xs with
  | nil =>
    rw [mapM_nil, fresh_pure] at h
    rw [h.1]
    rfl
  | cons name names ih =>
    simp only [mapM_cons, fresh_bind, fresh_pure] at h
    obtain ⟨x, n1, hx, ys, n2, hys, rfl, -⟩ := h
    obtain ⟨info, rfl⟩ := Expr.fresh_eq hx
    rw [map_cons, map_cons, ih hys]
    rfl

/-- How the definition and the guard of a check are put together. Their nodes are
new, apart from the operand, and those of the guard come after those of the names. -/
theorem checkPrelude_spec (info : TypeInfo) (c : Collected) (b : CheckBinding) (values : List String) (errVar : String)
    (n : NodeId) : ∃ names define cond test err nil block copies default n1 n2 n3 n4 n',
      (∀ operand, checkPrelude info c b values errVar operand n = ([.assign define names .define [operand],
        .cond cond none (.binary test .ne (.ident err errVar) (.ident nil "nil"))
          ⟨block, trimStmts (copies.flatten ++ [default])⟩ none], n')) ∧
      (values ++ [errVar]).mapM Expr.fresh n = (names, n1) ∧
      defaultHandler info (c.funcs[b.func]?.getD []) errVar n2 = (default, n3) ∧
      (b.chain.filterMap fun j => c.handlers[j]?).mapM (fun h => h.instantiate errVar) n3 = (copies, n4) ∧
      ∀ i, define.count i + (Stmt.cond cond none (.binary test .ne (.ident err errVar) (.ident nil "nil"))
        ⟨block, copies.flatten ++ [default]⟩ none).count i + spare n' i ≤ spare n1 i := by
  rcases hnames : (values ++ [errVar]).mapM Expr.fresh n with ⟨names, n1⟩
  rcases hdefine : freshInfo n1 with ⟨define, n2⟩
  rcases hdefault : defaultHandler info (c.funcs[b.func]?.getD []) errVar n2 with ⟨default, n3⟩
  rcases hcopies : (b.chain.filterMap fun j => c.handlers[j]?).mapM (fun h => h.instantiate errVar) n3 with ⟨copies, n4⟩
  rcases herr : Expr.fresh errVar n4 with ⟨err, n5⟩
  rcases hnil : Expr.fresh "nil" n5 with ⟨nil, n6⟩
  rcases htest : freshInfo n6 with ⟨test, n7⟩
  rcases hblock : freshInfo n7 with ⟨block, n8⟩
  rcases hcond : freshInfo n8 with ⟨cond, n9⟩
  obtain ⟨err', rfl⟩ := Expr.fresh_eq herr
  obtain ⟨nil', rfl⟩ := Expr.fresh_eq hnil
  refine ⟨names, define, cond, test, err', nil', block, copies, default, n1, n2, n3, n4, n9, fun operand => ?_, rfl,
    hdefault, hcopies, fun i => ?_⟩
  · unfold checkPrelude handlingBody
    simp only [fresh_bind, fresh_pure]
    exact ⟨_, _, hnames, _, _, hdefine, _, _, hdefault, _, _, ⟨_, _, hcopies, rfl, rfl⟩, _, _, herr, _, _, hnil,
      _, _, htest, _, _, hblock, _, _, hcond, rfl, rfl⟩
  · have h2 : define.count i + spare n2 i ≤ 0 + spare n1 i := freshInfo_draws hdefine i
    have h3 : default.count i + spare n3 i ≤ 0 + spare n2 i := defaultHandler_draws _ _ _ hdefault i
    have h4 : countStmts i copies.flatten + spare n4 i ≤ 0 + spare n3 i := copies_draws _ _ hcopies i
    have h5 := Expr.fresh_draws _ herr i
    have h6 := Expr.fresh_draws _ hnil i
    have h7 : test.count i + spare n7 i ≤ 0 + spare n6 i := freshInfo_draws htest i
    have h8 : block.count i + spare n8 i ≤ 0 + spare n7 i := freshInfo_draws hblock i
    have h9 : cond.count i + spare n9 i ≤ 0 + spare n8 i := freshInfo_draws hcond i
    simp only [Stmt.count, Expr.count, Block.count, countStmt?, countStmts_append, countStmts] at h5 h6 ⊢
    omega

theorem checkPrelude_made (info : TypeInfo) (c : Collected) (b : CheckBinding) (values : List String) (errVar : String)
    (n : NodeId) : ∃ names define guard n',
      (∀ i, countExprs i names + define.count i + guard.count i + spare n' i ≤ spare n i) ∧
      ∀ operand, checkPrelude info c b values errVar operand n = ([.assign define names .define [operand], guard], n') := by
  obtain ⟨names, define, _, _, _, _, _, copies, default, n1, _, _, _, n', prelude, hnames, -, -, count⟩ :=
    checkPrelude_spec info c b values errVar n
  refine ⟨names, define, _, n', fun i => ?_, prelude⟩
  have drawn : countExprs i names + spare n1 i ≤ 0 + spare n i := mapM_draws Expr.fresh_draws _ hnames i
  have count := count i
  have trimmed := countStmts_trimStmts_le i (copies.flatten ++ [default])
  simp only [Stmt.count, Block.count] at count ⊢
  omega

/-- A guard tests the error against `nil`, and its body handles the error. -/
theorem checkPrelude_guard {c : Collected} {b : CheckBinding} {operand : Expr} {e : Expanded}
    (h : checkPrelude info c b values errVar operand n = (e.prelude operand, n')) :
    e.names.map Expr.ident? = (values ++ [errVar]).map some ∧
    ∃ cond test err nil block copies default n1 n2 n3,
      e.guard = .cond cond none (.binary test .ne (.ident err errVar) (.ident nil "nil"))
        ⟨block, trimStmts (copies.flatten ++ [default])⟩ none ∧
      defaultHandler info (c.funcs[b.func]?.getD []) errVar n1 = (default, n2) ∧
      (b.chain.filterMap fun j => c.handlers[j]?).mapM (fun h => h.instantiate errVar) n2 = (copies, n3) := by
  obtain ⟨names, define, cond, test, err, nil, block, copies, default, _, n2, n3, n4, _, prelude, hnames, hdefault,
    hcopies, -⟩ := checkPrelude_spec info c b values errVar n
  have same := (Prod.mk.inj (h.symm.trans (prelude operand))).1
  simp only [Expanded.prelude, List.cons.injEq, Stmt.assign.injEq] at same
  obtain ⟨⟨-, rfl, -⟩, hguard, -⟩ := same
  exact ⟨mapM_fresh_ident? hnames, cond, test, err, nil, block, copies, default, n2, n3, n4, hguard, hdefault, hcopies⟩

theorem Expanding.updateFrame_eq (s : Expanding) (change : StmtFrame → StmtFrame) :
    s.updateFrame change = { s with frames := s.frames.modifyHead change } := by
  rcases s with ⟨shared, frames, expanded⟩
  cases frames <;> rfl

/-- Identities are drawn from the counter of the pass, and nothing else
changes. -/
theorem drawIds_ok {α : Type} {m : Fresh α} {a : α} : drawIds m s = (.ok a, s') ↔ ∃ n, m s.shared.nextId = (a, n) ∧
      s' = { s with shared := { s.shared with nextId := n } } := by
  have step : drawIds m s = (.ok (m s.shared.nextId).1,
      { s with shared := { s.shared with nextId := (m s.shared.nextId).2 } }) := rfl
  rw [step]
  constructor
  · intro h
    cases h
    exact ⟨_, rfl, rfl⟩
  · rintro ⟨n, hm, rfl⟩
    rw [hm]

/-- What stands for a check has new nodes, and a check that was a statement
marks it for removal. -/
theorem placeResults_ok (h : placeResults x slot names errVar s = (.ok (values, action), s')) :
    ∃ uses : Option (List Expr), (uses = none ↔ slot = .statement) ∧ (slot = .single → ∃ u, uses = some [u]) ∧
      (∀ u ∈ uses.getD [], ∃ name ∈ values ++ [errVar], u.ident? = some name) ∧
      uses.map (List.map Expr.ident?) = (slot.placed values errVar).map (List.map some) ∧
      (∀ names define guard, action = (⟨names, define, guard, uses⟩ : Expanded).action) ∧
      (values = names ∨ values = names.map fun _ => "_") ∧
      (∀ i, countExprs i (uses.getD []) + spare s'.shared.nextId i ≤ spare s.shared.nextId i) ∧
      s'.shared.collected = s.shared.collected ∧ s'.expanded = s.expanded ∧
      s'.frames = if slot = .statement then s.frames.modifyHead ({ · with removed := true })
        else s.frames := by
  have one : ∀ {u : Expr} {t : Expanding}, Expr.fresh (names.headD errVar) t.shared.nextId
      = (u, s'.shared.nextId) → t.shared.nextId = s.shared.nextId →
      ∀ i, countExprs i [u] + spare s'.shared.nextId i ≤ spare s.shared.nextId i := by
    intro u t hu ht i
    have : u.count i + spare s'.shared.nextId i ≤ 0 + spare t.shared.nextId i := Expr.fresh_draws _ hu i
    rw [ht] at this
    simp only [countExprs]
    omega
  have named : ∀ {u : Expr} {n n' : NodeId}, Expr.fresh (names.headD errVar) n = (u, n') →
      ∀ y ∈ [u], ∃ name ∈ names ++ [errVar], y.ident? = some name := by
    intro u n n' hu y hy
    obtain rfl := mem_singleton.mp hy
    obtain ⟨info, rfl⟩ := Expr.fresh_eq hu
    refine ⟨_, ?_, rfl⟩
    cases names <;> simp
  have placed : ∀ {u : Expr} {n n' : NodeId}, Expr.fresh (names.headD errVar) n = (u, n') →
      ¬ 2 ≤ names.length → some ([u].map Expr.ident?)
        = some ((if 2 ≤ names.length then names else [names.headD errVar]).map some) := by
    intro u n n' hu few
    obtain ⟨info, rfl⟩ := Expr.fresh_eq hu
    rw [if_neg few]
    rfl
  cases slot with
  | statement =>
    simp only [placeResults, visit_bind, visit_modify, visit_pure] at h
    obtain ⟨_, s1, rfl, h, rfl⟩ := h
    cases h
    rw [Expanding.updateFrame_eq]
    exact ⟨none, by simp, nofun, by simp, rfl, fun _ _ _ => rfl, .inr rfl,
      fun i => by simp [countExprs], rfl, rfl, by simp⟩
  | single =>
    simp only [placeResults] at h
    split at h
    · exact absurd h visit_throw
    · rename_i few
      simp only [visit_bind, visit_pure, drawIds_ok] at h
      obtain ⟨u, _, ⟨n, hu, rfl⟩, h, rfl⟩ := h
      cases h
      exact ⟨some [u], by simp, fun _ => ⟨u, rfl⟩, named hu, placed hu few, fun _ _ _ => rfl,
        .inl rfl, one hu rfl, rfl, rfl, by simp⟩
  | list owner kind =>
    simp only [placeResults] at h
    split at h
    · rename_i two
      simp only [visit_bind, visit_get] at h
      obtain ⟨_, _, ⟨rfl, rfl⟩, h⟩ := h
      split at h
      · rw [visit_bind] at h
        obtain ⟨_, _, h, -⟩ := h
        exact absurd h visit_throw
      · simp only [visit_bind, visit_set, visit_pure, drawIds_ok] at h
        obtain ⟨_, _, rfl, us, _, ⟨n, hus, rfl⟩, h, rfl⟩ := h
        cases h
        have length_us : us.length = names.length := by
          simpa using congrArg length (mapM_fresh_ident? hus)
        refine ⟨some us, by simp, nofun, fun u hu => ?_, ?_, fun _ _ _ => ?_, .inl rfl, fun i => ?_, rfl, rfl, by simp⟩
        · have hmem : u.ident? ∈ us.map Expr.ident? := mem_map_of_mem hu
          rw [mapM_fresh_ident? hus] at hmem
          obtain ⟨name, hname, hu⟩ := mem_map.mp hmem
          exact ⟨name, mem_append_left _ hname, hu.symm⟩
        · have several : Slot.placed (.list owner kind) names errVar = some names := by
            simp [Slot.placed, two]
          rw [several, Option.map_some, Option.map_some, mapM_fresh_ident? hus]
        · match us, length_us with
          | [], h => simp at h; omega
          | [u], h => simp at h; omega
          | _ :: _ :: _, _ => rfl
        · have := mapM_draws Expr.fresh_draws _ hus i
          simpa using this
    · rename_i few
      simp only [visit_bind, visit_pure, drawIds_ok] at h
      obtain ⟨u, _, ⟨n, hu, rfl⟩, h, rfl⟩ := h
      cases h
      exact ⟨some [u], by simp, nofun, named hu, placed hu few, fun _ _ _ => rfl, .inl rfl,
        one hu rfl, rfl, rfl, by simp⟩

/-! ## Names of results -/

/-- Names that only the expansion gives, and the blank. -/
def AreTemporary (names : List String) : Prop :=
  ∀ name ∈ names, name = "_" ∨ ∃ typeName n, name = temporaryName typeName n

theorem resultNames_ne_nil (h : resultNames info ty = .ok kinds) : kinds ≠ [] := by
  unfold resultNames at h
  split at h
  · split at h
    · cases h
    · split at h
      · cases h
        rename_i items _ last hlast _
        intro hnil
        rw [map_eq_nil_iff.mp hnil] at hlast
        cases hlast
      · cases h
  · split at h
    · cases h
      simp
    · cases h
  · cases h
  · cases h

theorem allocateAll_temporary (scope : NamingScope) (kinds : List String) : AreTemporary (scope.allocateAll kinds).1 ∧
      (scope.allocateAll kinds).1.length = kinds.length := by
  induction kinds generalizing scope with
  | nil =>
    refine ⟨?_, rfl⟩
    rintro name (_ | _)
  | cons kind kinds ih =>
    obtain ⟨temporary, length_eq⟩ := ih (scope.allocate kind).2
    refine ⟨?_, by simpa [NamingScope.allocateAll] using length_eq⟩
    intro name hname
    simp only [NamingScope.allocateAll, mem_cons] at hname
    rcases hname with rfl | hname
    · exact .inr ⟨kind, _, rfl⟩
    · exact temporary name hname

/-- The names of a block are drawn from its scope, and nothing else changes. -/
theorem allocateNames_ok {block : NodeId} (h : allocateNames block kinds s = (.ok names, s')) :
    AreTemporary names ∧ names.length = kinds.length ∧ ∃ scopes, s' = { s with
        shared := { s.shared with collected := { s.shared.collected with scopes } } } := by
  cases h
  exact ⟨(allocateAll_temporary _ kinds).1, (allocateAll_temporary _ kinds).2, _, rfl⟩

/-! ## What a pass answers -/

/-- The frame of a statement in which a check of `operand` has been expanded. -/
def Expanded.updated (e : Expanded) (operand : Expr) (frame : StmtFrame) : StmtFrame := { frame with
    before := frame.before ++ e.prelude operand
    removed := frame.removed || e.uses.isNone }

theorem expandCheck_ok (h : expandCheck info x slot binding ty s = (.ok action, s')) :
    ∃ (e : Expanded) (operand : Expr) (values : List String) (errVar : String), x.argsOf? checkFunc = some [operand] ∧
      e.Made info s'.shared.collected binding slot values errVar s.shared.nextId s'.shared.nextId ∧
      AreTemporary (values ++ [errVar]) ∧ action = e.action ∧
      (∃ scopes, s'.shared.collected = { s.shared.collected with scopes }) ∧
      s'.frames = s.frames.modifyHead (e.updated operand) ∧ s'.expanded = s.expanded + 1 := by
  unfold expandCheck at h
  rcases hkinds : resultNames info ty with cause | kinds
  · rw [hkinds] at h
    exact absurd h visit_throw
  simp only [hkinds, visit_bind] at h
  obtain ⟨names, s1, hnames, h⟩ := h
  obtain ⟨temporary, length_eq, scopes, rfl⟩ := allocateNames_ok hnames
  rcases hoperand : x.argsOf? checkFunc with _ | (_ | ⟨operand, _ | ⟨_, _⟩⟩)
  · rw [hoperand] at h
    exact absurd h visit_throw
  · rw [hoperand] at h
    exact absurd h visit_throw
  rotate_left
  · rw [hoperand] at h
    exact absurd h visit_throw
  rw [hoperand] at h
  simp only [visit_bind, visit_get, visit_modify, visit_pure, drawIds_ok] at h
  obtain ⟨⟨values, place⟩, _, hplace, _, s2, ⟨rfl, rfl⟩, stmts, _, ⟨n', hstmts, rfl⟩, _, _, rfl, _, _,
    rfl, rfl, rfl⟩ := h
  obtain ⟨uses, huses, hsingle, hnamed, hplaced, haction, hvalues, hfresh, hcollected, hexpanded, hframes⟩ :=
    placeResults_ok hplace
  obtain ⟨lhs, define, guard, n'', hprelude, hstmts'⟩ := checkPrelude_made info
    s2.shared.collected binding values (names.getLastD "") s2.shared.nextId
  rw [hstmts' operand] at hstmts
  cases hstmts
  refine ⟨⟨lhs, define, guard, uses⟩, operand, values, names.getLastD "", rfl,
    ⟨fun i => ?_, ⟨s2.shared.nextId, ?_⟩, huses, hsingle, hnamed, hplaced⟩, ?_, haction _ _ _, ⟨scopes, ?_⟩, ?_,
    ?_⟩
  · have h1 := hprelude i
    have h2 : countExprs i (uses.getD []) + spare s2.shared.nextId i ≤ spare s.shared.nextId i := hfresh i
    simp only [Expanding.updateFrame_eq, Expanded.count]
    omega
  · intro operand
    rw [Expanding.updateFrame_eq]
    exact hstmts' operand
  · have hne : names ≠ [] := by
      intro hnil
      rw [hnil] at length_eq
      exact resultNames_ne_nil hkinds (length_eq_zero_iff.mp length_eq.symm)
    intro name hname
    rcases mem_append.mp hname with hname | hname
    · rcases hvalues with rfl | rfl
      · exact temporary name (dropLast_subset _ hname)
      · obtain ⟨_, _, rfl⟩ := mem_map.mp hname
        exact .inl rfl
    · rw [mem_singleton.mp hname, getLastD_eq_getLast?, getLast?_eq_some_getLast hne]
      exact temporary _ (getLast_mem hne)
  · rw [Expanding.updateFrame_eq]
    exact hcollected
  · rw [Expanding.updateFrame_eq]
    show s2.frames.modifyHead _ = _
    rw [hframes]
    rcases s.frames with _ | ⟨frame, frames⟩
    · split <;> rfl
    · by_cases hslot : slot = .statement
      · obtain rfl := huses.mpr hslot
        rw [if_pos hslot]
        simp [Expanded.updated, Expanded.prelude]
      · obtain ⟨us, rfl⟩ := Option.ne_none_iff_exists'.mp (mt huses.mp hslot)
        rw [if_neg hslot]
        simp [Expanded.updated, Expanded.prelude]
  · rw [Expanding.updateFrame_eq]
    show s2.expanded + 1 = _
    rw [hexpanded]

/-- The check at `id` is one of the file `file` and is still to be expanded. -/
def Collected.Pending (c : Collected) (file : Nat) (id : NodeId) (binding : CheckBinding) : Prop :=
  c.checks.get? id = some binding ∧ binding.file = file

/-- What a pass over the file with number `file` may answer at `x`. -/
inductive Answers (info : TypeInfo) (file : Nat) (x : Expr) (slot : Slot) (s : Expanding) :
    ExprAction → Expanding → Prop
  /-- No check is pending here, or another one of the statement waits. -/
  | keep (idle : ∀ b, s.shared.collected.Pending file x.info.id b → s.isInterrupted) :
    Answers info file x slot s .keep s
  /-- The check has no type, so it waits, and so do those after it. -/
  | wait {b : CheckBinding} (pending : s.shared.collected.Pending file x.info.id b)
      (going : s.isInterrupted = false) (untyped : info.typeOf x.info.id = none) :
    Answers info file x slot s .keep
      { s with frames := s.frames.modifyHead ({ · with interrupted := true }) }
  | expand {b : CheckBinding} {ty : Ty} {e : Expanded} {operand : Expr} {values : List String}
      {errVar : String} {s' : Expanding}
      (pending : s.shared.collected.Pending file x.info.id b) (going : s.isInterrupted = false)
      (typed : info.typeOf x.info.id = some ty)
      (args : x.argsOf? checkFunc = some [operand])
      (made : e.Made info s'.shared.collected b slot values errVar s.shared.nextId s'.shared.nextId)
      (temporary : AreTemporary (values ++ [errVar]))
      (collected : ∃ scopes, s'.shared.collected = { s.shared.collected with
        checks := s.shared.collected.checks.erase x.info.id, scopes })
      (frames : s'.frames = s.frames.modifyHead (e.updated operand))
      (expanded : s'.expanded = s.expanded + 1) :
    Answers info file x slot s e.action s'

theorem answers_of_exitExpr {file : Nat} {position : Position}
    (h : (expander info file).exitExpr x position s = (.ok action, s')) :
    Answers info file x position.slot s action s' := by
  simp only [expander, visit_bind, visit_get] at h
  obtain ⟨_, _, ⟨rfl, rfl⟩, h⟩ := h
  rename_i s
  rcases hb : s.shared.collected.checks.get? x.info.id with _ | b
  · simp only [hb, visit_pure] at h
    obtain ⟨rfl, rfl⟩ := h
    refine .keep fun b pending => ?_
    rw [Collected.Pending, hb] at pending
    cases pending.1
  simp only [hb] at h
  split at h
  · rename_i idle
    rw [visit_pure] at h
    obtain ⟨rfl, rfl⟩ := h
    refine .keep fun b' pending => ?_
    rw [Collected.Pending, hb] at pending
    obtain ⟨⟨⟩, hfile⟩ := pending
    simpa [hfile] using idle
  rename_i going
  simp only [Bool.or_eq_true, bne_iff_ne, not_or, Decidable.not_not, Bool.not_eq_true] at going
  have pending : s.shared.collected.Pending file x.info.id b := ⟨hb, going.1⟩
  rcases hty : info.typeOf x.info.id with _ | ty
  · simp only [hty, visit_bind, visit_modify, visit_pure] at h
    obtain ⟨_, _, rfl, rfl, rfl⟩ := h
    rw [Expanding.updateFrame_eq]
    exact .wait pending going.2 hty
  · simp only [hty, visit_bind, visit_set] at h
    obtain ⟨_, _, rfl, h⟩ := h
    obtain ⟨e, operand, values, errVar, args, made, temporary, rfl, ⟨scopes, hcollected⟩, frames,
      expanded⟩ := expandCheck_ok h
    exact .expand pending going.2 hty args made temporary ⟨scopes, hcollected⟩ frames expanded

end CheckHandle
