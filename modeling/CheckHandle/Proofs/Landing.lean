import CheckHandle.Proofs.Binding
import CheckHandle.Proofs.Marks

/-!
# Where markers land

A marker is an offset, and collection looks for its node: the first node of the
right kind that a walk comes to at the offset. Whether there is such a node, and
whether it has the form that the lowering wrote, is decided by how the lowered
text is read. A failure of collection that is internal is due to a marker that
does not land.
-/

namespace CheckHandle

open Std List

variable {x : Expr} {o index : Nat} {t : Stmt} {out : Collected} {files : List SourceFile}

attribute [local simp] Stmt.statement

/-! ## What a walk can come to -/

/-- A node that may bear a marker: a call of the check function or a statement. -/
structure Sight where
  kind : MarkerKind
  offset : Nat
  /-- The node has the form that the lowering writes. -/
  fits : Bool
deriving DecidableEq

/-- How many arguments an expression has as a call of the check function. -/
def operandCount? : Kind → List Term → Option Nat
  | .call _, [.expr _ (.ident name) _ _, .group _ _ args] =>
    if name = checkFunc then some args.length else none
  | _, _ => none

/-- A call of the check function. -/
def callSights (kind : Kind) (info : Info) (parts : List Term) : List Sight :=
  ((operandCount? kind parts).map fun n => ⟨.check, info.span.start, n == 1⟩).toList

/-- The statement is a conditional on the flag of handlers, with no other part
than its block. -/
def isHandlerForm : Kind → List Term → Bool
  | .cond, [.fixed .absent _ _, .expr _ (.ident name) _ _, _, .fixed .absent _ _] =>
    name == handleFlag
  | _, _ => false

section Sights

-- At the offsets in `hides`, a statement hides what is in it.
variable (hides : Nat → Bool)

mutual

/-- The nodes in a term that may bear markers. -/
def Term.sights : Term → List Sight
  | .expr _ kind info parts => sightsIn parts ++ callSights kind info parts
  | .group _ _ parts => sightsIn parts
  | .fixed .. => []
  | .block _ ss => sightsOf ss

def sightsIn : List Term → List Sight
  | [] => []
  | t :: ts => t.sights ++ sightsIn ts

def sightsOf : List Statement → List Sight
  | [] => []
  | .mk kind info parts :: ss =>
    ⟨.handle, info.span.start, isHandlerForm kind parts⟩ ::
      ((if hides info.span.start then [] else sightsIn parts) ++ sightsOf ss)

end

theorem sightsIn_append (ts us : List Term) : sightsIn hides (ts ++ us) = sightsIn hides ts ++ sightsIn hides us :=
  append_of_cons rfl (fun _ _ => by simp [sightsIn]) ts us

theorem sightsOf_append (ss ts : List Statement) :
    sightsOf hides (ss ++ ts) = sightsOf hides ss ++ sightsOf hides ts :=
  append_of_cons rfl (fun ⟨_, _, _⟩ _ => by simp [sightsOf]) ss ts

end Sights

/-- All nodes that may bear markers, whatever they stand in. -/
abbrev everywhere : Nat → Bool := fun _ => false

/-- The markers of handlers hide what is in the statements there. -/
def Markers.hides (markers : Markers) (o : Nat) : Bool := markers.handles.contains o

/-- Every marker has a node outside handlers, and every node at a marker has the
form that the lowering writes. -/
structure Markers.Land (markers : Markers) (tree : File) : Prop where
  met : ∀ k o, markers.At k o → ∃ g ∈ tree.term.sights markers.hides, g.kind = k ∧ g.offset = o
  fit : ∀ g ∈ tree.term.sights everywhere, markers.At g.kind g.offset → g.fits = true

/-- Every marker has a node of the form that the lowering writes. -/
def Markers.Fit (markers : Markers) (tree : File) : Prop :=
  ∀ k o, markers.At k o → ⟨k, o, true⟩ ∈ tree.term.sights everywhere

/-- The marker has been tied to a node. -/
def Collecting.Bound (s : Collecting) : MarkerKind → Nat → Prop
  | .check, o => o ∈ s.boundChecks
  | .handle, o => o ∈ s.boundHandles

/-! ## Forms of nodes -/

theorem operandCount?_eq (x : Expr) : operandCount? x.kind x.parts = (x.argsOf? checkFunc).map length := by
  have length_exprTerms : ∀ xs : List Expr, (exprTerms true xs).length = xs.length := by
    intro xs
    induction xs with
    | nil => rfl
    | cons x xs ih => simp [exprTerms, ih]
  cases x with
  | call info fn args ellipsis =>
    cases fn with
    | ident info name =>
      simp only [Expr.kind, Expr.parts, operandCount?, Expr.argsOf?, length_exprTerms, beq_iff_eq]
      split <;> rfl
    | _ => rfl
  | _ => rfl

theorem Expr.startsWithPart_of_argsOf? {name : String} {args : List Expr}
    (h : x.argsOf? name = some args) : x.startsWithPart = false := by
  cases x <;> first | rfl | cases h

theorem mem_callSights {g : Sight} : g ∈ callSights x.kind x.info x.parts ↔
    ∃ args, x.argsOf? checkFunc = some args ∧ ⟨.check, x.info.span.start, args.length == 1⟩ = g := by
  simp [callSights, operandCount?_eq]

theorem isHandlerForm_eq (t : Stmt) : isHandlerForm t.kind t.parts = (handlerBody? t).isSome := by
  cases t with
  | cond info init test body other =>
    cases init with
    | some init => rfl
    | none =>
      cases other with
      | some other => cases test <;> rfl
      | none =>
        cases test with
        | ident info name =>
          simp only [Stmt.kind, Stmt.parts, stmtTerm?, Term.absent, isHandlerForm, Expr.kind, handlerBody?, Expr.ident?]
          cases h : name == handleFlag <;> simp_all
        | _ => rfl
  | _ => rfl

/-- A term from outside: what it is and how many parts it has. Collection keeps
that of every term. -/
def Term.face : Term → Term
  | .expr listed kind info parts => .expr listed kind info (replicate parts.length .absent)
  | .group kind info parts => .group kind info (replicate parts.length .absent)
  | .fixed kind info parts => .fixed kind info parts
  | .block info _ => .block info []

theorem operandCount?_map_face (kind : Kind) (parts : List Term) :
    operandCount? kind (parts.map Term.face) = operandCount? kind parts := by
  rcases parts with _ | ⟨fn, _ | ⟨args, _ | ⟨_, _⟩⟩⟩
  · rfl
  · simp [operandCount?]
  · cases kind with
    | call =>
      cases fn with
      | expr listed kind info parts =>
        cases kind with
        | ident name => cases args <;> simp [Term.face, operandCount?]
        | _ => rfl
      | _ => rfl
    | _ => rfl
  · simp [operandCount?]

/-! ## What collection refuses -/

/-- Functions with the numbers of their open blocks, the innermost first. -/
def Collecting.opened (s : Collecting) : List Nat := s.funcs.map fun func => func.blocks.length

@[simp] theorem Collecting.opened_popFunc (s : Collecting) : s.popFunc.opened = s.opened.tail := by
  simp [Collecting.opened, Collecting.popFunc]

theorem Collecting.opened_pushBlock (s : Collecting) (id : NodeId) :
    (s.pushBlock id).opened = s.opened.modifyHead (· + 1) := by
  unfold Collecting.pushBlock Collecting.opened
  cases s.funcs <;> rfl

theorem Collecting.opened_popBlock (s : Collecting) : s.popBlock.opened = s.opened.modifyHead (· - 1) := by
  unfold Collecting.popBlock Collecting.opened
  cases h : s.funcs <;> simp [h]

section Refusals

variable {markers : Markers} {file : Nat} {s s' : Collecting} {e : Fault}

theorem Markers.at_handle_iff : markers.At .handle o ↔ ∃ name, markers.handles.get? o = some name := by
  rw [← Option.isSome_iff_exists, TreeMap.get?_eq_getElem?, TreeMap.isSome_getElem?_iff_mem]
  exact Iff.rfl

/-- What collection does at a statement. -/
theorem enterStmt_eq (t : Stmt) : (collector markers file).enterStmt t s =
    match markers.handles.get? t.info.span.start with
    | none => (.ok .walk, { s.ownStmt t.info.id with stmts := t.info.id :: (s.ownStmt t.info.id).stmts })
    | some errName =>
      if s.boundHandles.contains t.info.span.start then
        (.ok .walk, { s.ownStmt t.info.id with stmts := t.info.id :: (s.ownStmt t.info.id).stmts })
      else
        collectHandler t errName
          { s with boundHandles := s.boundHandles.insert t.info.span.start } := by
  have step : ∀ (c : Bool) (m m' : CollectM Enter),
      (if (!c) = true then m else m') s = if c = true then m' s else m s := by
    intro c m m'
    cases c <;> rfl
  cases hhandle : markers.handles.get? t.info.span.start with
  | none =>
    simp only [collector, hhandle]
    rfl
  | some errName =>
    simp only [collector, hhandle]
    exact step _ _ _

/-- The position is one where a marker is not allowed. -/
def Cause.IsPosition (cause : Cause) : Prop := ∃ place, cause = .unsupportedPosition place

/-- A handler is refused for its position, or if the statement does not have its
form. -/
theorem collectHandler_refused {errName : String} (h : collectHandler t errName s = (.error e, s')) :
    e.cause.IsPosition ∨ handlerBody? t = none := by
  unfold collectHandler at h
  cases hbody : handlerBody? t with
  | none => exact .inr rfl
  | some body =>
    simp only [hbody] at h
    simp only [visit_bind_error, visit_get] at h
    rcases h with h | ⟨_, _, ⟨rfl, rfl⟩, h | ⟨_, _, -, h⟩⟩
    · cases h
    · cases h
    · generalize Collecting.addHandler _ _ = added at h
      cases added with
      | none =>
        cases h
        exact .inl ⟨_, rfl⟩
      | some _ => cases h

/-- A statement at a marker is walked only if the marker is bound. -/
theorem bound_of_walked (h : (collector markers file).enterStmt t s = (.ok .walk, s'))
    (marked : markers.At .handle t.info.span.start) : s.Bound .handle t.info.span.start := by
  obtain ⟨errName, hname⟩ := Markers.at_handle_iff.mp marked
  rw [enterStmt_eq, hname] at h
  dsimp only at h
  split at h
  · assumption
  · cases (collectHandler_ok h).1

theorem enterStmt_refused (h : (collector markers file).enterStmt t s = (.error e, s')) :
    e.cause.IsPosition ∨ markers.At .handle t.info.span.start ∧ handlerBody? t = none := by
  rw [enterStmt_eq] at h
  split at h
  · cases h
  · rename_i errName hname
    have marked : markers.At .handle t.info.span.start := Markers.at_handle_iff.mpr ⟨errName, hname⟩
    split at h
    · cases h
    · exact (collectHandler_refused h).imp_right fun hbody => ⟨marked, hbody⟩

/-- A check is refused for its position, or if it does not have one argument. -/
theorem collectCheck_refused {region : Region}
    (h : collectCheck file x region s = (.error e, s')) (framed : s.opened.head? ≠ some 0) :
    e.cause.IsPosition ∨ ((x.argsOf? checkFunc).getD []).length ≠ 1 := by
  by_cases hcount : ((x.argsOf? checkFunc).getD []).length = 1
  rotate_left
  · exact .inr hcount
  refine .inl ?_
  unfold collectCheck at h
  rcases hregion : region.refusal? with _ | place
  rotate_left
  · simp only [hregion, visit_bind_error] at h
    rcases h with h | ⟨_, _, h, -⟩
    · cases h
      exact ⟨place, rfl⟩
    · cases h
  simp only [hregion] at h
  rw [if_neg (by simpa using hcount)] at h
  simp only [visit_bind_error, visit_get] at h
  rcases h with h | ⟨_, s, ⟨rfl, rfl⟩, h⟩
  · cases h
  rcases hfuncs : s.funcs with _ | ⟨func, funcs⟩
  · simp only [hfuncs] at h
    cases h
    exact ⟨_, rfl⟩
  rcases hstmts : s.stmts with _ | ⟨stmt, stmts⟩
  · simp only [hfuncs, hstmts] at h
    cases h
    exact ⟨_, rfl⟩
  obtain ⟨block, blocks, hblocks⟩ : ∃ block blocks, func.blocks = block :: blocks := by
    refine exists_cons_of_ne_nil fun hnil => framed ?_
    simp [Collecting.opened, hfuncs, hnil]
  have hblock : s.block? = some block.id := by
    unfold Collecting.block?
    rw [hfuncs]
    simp [hblocks]
  simp only [hfuncs, hstmts, hblock] at h
  cases h

/-- What collection does at an expression. -/
theorem exitExpr_eq (x : Expr) (position : Position) : ∃ ownership, (collector markers file).exitExpr x position s =
    if markers.checks.contains x.info.span.start && !x.startsWithPart && (x.argsOf? checkFunc).isSome
        && !s.boundChecks.contains x.info.span.start then
      (do
        collectCheck file x position.region
        return ExprAction.keep : CollectM ExprAction)
        { s with
          out := { s.out with ownership }, boundChecks := s.boundChecks.insert x.info.span.start }
    else (.ok .keep, { s with out := { s.out with ownership } }) := by
  obtain ⟨ownership, howned⟩ := s.ownExpr_eq x.info.id
  have step : ∀ (c : Bool) (m m' : CollectM ExprAction) (s : Collecting),
      (if c = true then m else m') s = if c = true then m s else m' s := by
    intro c m m' s
    cases c <;> rfl
  have run : (collector markers file).exitExpr x position s = (do
      let s ← get
      let offset := x.info.span.start
      if markers.checks.contains offset && !x.startsWithPart && (x.argsOf? checkFunc).isSome
          && !s.boundChecks.contains offset then
        set { s with boundChecks := s.boundChecks.insert offset }
        collectCheck file x position.region
      return .keep : CollectM ExprAction) (s.ownExpr x.info.id) := rfl
  rw [run, howned]
  exact ⟨ownership, step _ _ _ _⟩

end Refusals

/-! ## Walks over sights -/

/-- The part of a walk from `w` to `w'` comes to the nodes `shown`, and to no
others than the nodes `all`. -/
structure Surveyed (markers : Markers) (all shown : List Sight) (w w' : Walk Collecting Fault) : Prop where
  idle : w.failure.isSome = true → w' = w
  blame : ∀ e, w.failure = none → w'.failure = some e → e.cause.IsPosition ∨
    ∃ g ∈ all, markers.At g.kind g.offset ∧ g.fits = false
  opened : w'.failure = none → w'.state.opened = w.state.opened
  keeps : ∀ k o, w'.failure = none → w.state.Bound k o → w'.state.Bound k o
  binds : ∀ g ∈ shown, w'.failure = none → markers.At g.kind g.offset → w'.state.Bound g.kind g.offset
  fits : ∀ k o, w'.failure = none → w'.state.Bound k o → w.state.Bound k o ∨ ⟨k, o, true⟩ ∈ all

namespace Surveyed

variable {markers : Markers} {file : Nat} {all all1 all2 shown shown1 shown2 : List Sight}
  {w w1 w2 w' : Walk Collecting Fault}

theorem of_failed (hw : w.failure.isSome = true) : Surveyed markers all shown w w := by
  have failed : w.failure ≠ none := by
    intro h
    rw [h] at hw
    cases hw
  exact {
    idle := fun _ => rfl
    blame := fun _ h => absurd h failed
    opened := fun _ => rfl
    keeps := fun _ _ _ h => h
    binds := fun _ _ h => absurd h failed
    fits := fun _ _ h => absurd h failed }

variable {s : Collecting} {f : Collecting → Collecting} {position : Position}
  {action : ExprAction}

theorem of_ok (hw : w.failure = none) (opened : s.opened = w.state.opened)
    (keeps : ∀ k o, w.state.Bound k o → s.Bound k o)
    (binds : ∀ g ∈ shown, markers.At g.kind g.offset → s.Bound g.kind g.offset)
    (fits : ∀ k o, s.Bound k o → w.state.Bound k o ∨ ⟨k, o, true⟩ ∈ all) :
    Surveyed markers all shown w ⟨s, none⟩ where
  idle failed := by
    rw [hw] at failed
    cases failed
  blame := nofun
  opened _ := opened
  keeps k o _ := keeps k o
  binds g hg _ := binds g hg
  fits k o _ := fits k o

theorem of_refusal {e : Fault} (hw : w.failure = none)
    (blame : e.cause.IsPosition ∨ ∃ g ∈ all, markers.At g.kind g.offset ∧ g.fits = false) :
    Surveyed markers all shown w ⟨s, some e⟩ where
  idle failed := by
    rw [hw] at failed
    cases failed
  blame := by
    rintro _ - ⟨⟩
    exact blame
  opened := nofun
  keeps := nofun
  binds := nofun
  fits := nofun

theorem refl (w : Walk Collecting Fault) : Surveyed markers all [] w w where
  idle _ := rfl
  blame e hnone hsome := by
    rw [hnone] at hsome
    cases hsome
  opened _ := rfl
  keeps _ _ _ h := h
  binds _ hg := nomatch hg
  fits _ _ _ h := .inl h

theorem mono (h : Surveyed markers all1 shown1 w w') (hall : all1 ⊆ all) (hshown : shown ⊆ shown1) :
    Surveyed markers all shown w w' where
  idle := h.idle
  blame e hw hw' := (h.blame e hw hw').imp_right fun ⟨g, hg, misses⟩ => ⟨g, hall hg, misses⟩
  opened := h.opened
  keeps := h.keeps
  binds g hg := h.binds g (hshown hg)
  fits k o hw' hbound := (h.fits k o hw' hbound).imp_right fun hg => hall hg

/-- A part that ends without a failure starts without one. -/
theorem failure_eq_none (h : Surveyed markers all shown w w') (hw' : w'.failure = none) : w.failure = none := by
  cases hw : w.failure with
  | none => rfl
  | some e =>
    have := h.idle (by rw [hw]; rfl)
    rw [this, hw] at hw'
    cases hw'

theorem trans (h1 : Surveyed markers all1 shown1 w w1) (h2 : Surveyed markers all2 shown2 w1 w2) :
    Surveyed markers (all1 ++ all2) (shown1 ++ shown2) w w2 where
  idle hw := by
    obtain rfl := h1.idle hw
    exact h2.idle hw
  blame e hw hw2 := by
    cases hw1 : w1.failure with
    | none =>
      refine (h2.blame e hw1 hw2).imp_right fun ⟨g, hg, misses⟩ => ?_
      exact ⟨g, mem_append_right _ hg, misses⟩
    | some e1 =>
      obtain rfl := h2.idle (by rw [hw1]; rfl)
      refine (h1.blame e hw hw2).imp_right fun ⟨g, hg, misses⟩ => ?_
      exact ⟨g, mem_append_left _ hg, misses⟩
  opened hw2 := (h2.opened hw2).trans (h1.opened (h2.failure_eq_none hw2))
  keeps k o hw2 h := h2.keeps k o hw2 (h1.keeps k o (h2.failure_eq_none hw2) h)
  binds g hg hw2 marked := by
    rcases mem_append.mp hg with hg | hg
    · exact h2.keeps _ _ hw2 (h1.binds g hg (h2.failure_eq_none hw2) marked)
    · exact h2.binds g hg hw2 marked
  fits k o hw2 hbound := by
    rcases h2.fits k o hw2 hbound with hbound | hg
    · exact (h1.fits k o (h2.failure_eq_none hw2) hbound).imp_right (mem_append_left _)
    · exact .inr (mem_append_right _ hg)

/-- A step that binds no marker. -/
theorem of_silent {α : Type} {step : CollectM α} {idle a b : α} (hstep : ∀ s, step s = (.ok a, f s))
    (hopened : ∀ s, (f s).opened = s.opened) (hbound : ∀ s k o, (f s).Bound k o ↔ s.Bound k o)
    (h : recorded idle step w = (.ok b, w')) : Surveyed markers [] [] w w' := by
  rcases recorded_ok h with ⟨hw, -, rfl⟩ | ⟨s', hw, hs', rfl⟩ | ⟨e, s', -, hs', -⟩
  · exact refl w'
  · rw [hstep] at hs'
    cases hs'
    exact of_ok hw (hopened _) (fun k o => (hbound _ k o).mpr) nofun fun k o h =>
      .inl ((hbound _ k o).mp h)
  · rw [hstep] at hs'
    cases hs'

/-- A check may be bound at its call. -/
theorem report (h : (collector markers file).recording.exitExpr x position w = (.ok action, w'))
    (framed : w.failure = none → w.state.opened.head? ≠ some 0) :
    action = .keep ∧ Surveyed markers (callSights x.kind x.info x.parts) (callSights x.kind x.info x.parts) w w' := by
  obtain ⟨ownership, heq⟩ := @exitExpr_eq markers file w.state x position
  rcases recorded_ok h with ⟨hw, rfl, rfl⟩ | ⟨s', hw, hstep, rfl⟩ | ⟨e, s', hw, hstep, rfl, rfl⟩
  · exact ⟨rfl, of_failed hw⟩
  · rw [heq] at hstep
    split at hstep
    · rw [visit_bind] at hstep
      obtain ⟨_, _, hcheck, hstep⟩ := hstep
      rw [visit_pure] at hstep
      obtain ⟨rfl, rfl⟩ := hstep
      obtain ⟨operand, _, _, _, _, _, hargs, -, -, -, -, rfl⟩ := collectCheck_ok hcheck
      refine ⟨rfl, of_ok hw rfl ?_ ?_ ?_⟩
      · rintro (_ | _) o hold
        · exact TreeSet.mem_insert.mpr (.inr hold)
        · exact hold
      · intro g hg _
        obtain ⟨args, -, rfl⟩ := mem_callSights.mp hg
        exact TreeSet.mem_insert_self
      · rintro (_ | _) o hnew
        · rcases TreeSet.mem_insert.mp hnew with heq | hold
          · obtain rfl := Nat.compare_eq_eq.mp heq
            exact .inr (mem_callSights.mpr ⟨_, hargs, rfl⟩)
          · exact .inl hold
        · exact .inl hnew
    · rename_i notDue
      cases hstep
      refine ⟨rfl, of_ok hw rfl (fun _ _ => id) ?_ fun _ _ => .inl⟩
      intro g hg marked
      obtain ⟨args, hargs, rfl⟩ := mem_callSights.mp hg
      -- A call at a marker is passed over only if the marker is bound.
      have marked : markers.checks.contains x.info.span.start = true := marked
      rw [marked, Expr.startsWithPart_of_argsOf? hargs, hargs] at notDue
      show w.state.boundChecks.contains x.info.span.start = true
      simpa using notDue
  · rw [heq] at hstep
    split at hstep
    · rename_i due
      refine ⟨rfl, of_refusal hw ?_⟩
      rw [visit_bind_error] at hstep
      rcases hstep with hcheck | ⟨_, _, _, hstep⟩
      · refine (collectCheck_refused hcheck (framed hw)).imp_right fun hcount => ?_
        simp only [Bool.and_eq_true] at due
        obtain ⟨args, hargs⟩ := Option.isSome_iff_exists.mp due.1.2
        rw [hargs] at hcount
        exact ⟨_, mem_callSights.mpr ⟨args, hargs, rfl⟩, due.1.1.1, by simpa using hcount⟩
      · cases hstep
    · cases hstep

/-- A statement is entered, or taken out of the tree. -/
theorem enter {enter : Enter} (h : (collector markers file).recording.enterStmt t w = (.ok enter, w')) :
    (enter = .walk ∨ enter = .remove ∧ markers.At .handle t.info.span.start) ∧
      Surveyed markers [⟨.handle, t.info.span.start, isHandlerForm t.kind t.parts⟩]
        [⟨.handle, t.info.span.start, isHandlerForm t.kind t.parts⟩] w w' := by
  rcases recorded_ok h with ⟨hw, rfl, rfl⟩ | ⟨s', hw, hstep, rfl⟩ | ⟨e, s', hw, hstep, rfl, rfl⟩
  · exact ⟨.inl rfl, of_failed hw⟩
  · rcases enterStmt_collector hstep with ⟨rfl, ownership, rfl⟩ |
      ⟨rfl, errName, body, func, funcs, block, blocks, hname, -, hbody, hfuncs, hblocks, rfl⟩
    · refine ⟨.inl rfl, of_ok hw rfl ?_ ?_ ?_⟩
      · rintro (_ | _) o hold <;> exact hold
      · intro g hg marked
        obtain rfl := mem_singleton.mp hg
        have bound : w.state.Bound .handle t.info.span.start := bound_of_walked hstep marked
        exact bound
      · rintro (_ | _) o hnew <;> exact .inl hnew
    · have marked : markers.At .handle t.info.span.start := Markers.at_handle_iff.mpr ⟨errName, hname⟩
      refine ⟨.inr ⟨rfl, marked⟩, of_ok hw ?_ ?_ ?_ ?_⟩
      · simp [Collecting.opened, hfuncs, hblocks]
      · rintro (_ | _) o hold
        · exact hold
        · exact TreeSet.mem_insert.mpr (.inr hold)
      · intro g hg _
        obtain rfl := mem_singleton.mp hg
        exact TreeSet.mem_insert_self
      · rintro (_ | _) o hnew
        · exact .inl hnew
        · rcases TreeSet.mem_insert.mp hnew with heq | hold
          · obtain rfl := Nat.compare_eq_eq.mp heq
            rw [isHandlerForm_eq, hbody]
            exact .inr (mem_singleton_self _)
          · exact .inl hold
  · refine ⟨.inl rfl, of_refusal hw ((enterStmt_refused hstep).imp_right ?_)⟩
    rintro ⟨marked, hbody⟩
    refine ⟨_, mem_singleton_self _, marked, ?_⟩
    rw [isHandlerForm_eq, hbody]
    rfl

/-- A step into a part and out of it again. -/
theorem around {g : Collecting → Collecting} (hf : ∀ s k o, (f s).Bound k o ↔ s.Bound k o)
    (hg : ∀ s k o, (g s).Bound k o ↔ s.Bound k o)
    (hback : ∀ s s', s'.opened = (f s).opened → (g s').opened = s.opened) {u v : Unit}
    (henter : recorded () (modify f : CollectM Unit) w = (.ok u, w1))
    (h : Surveyed markers all shown w1 w2)
    (hexit : recorded () (modify g : CollectM Unit) w2 = (.ok v, w')) :
    Surveyed markers all shown w w' := by
  rcases recorded_ok henter with ⟨hw, -, rfl⟩ | ⟨s1, hw, hstep, rfl⟩ | ⟨_, _, -, hstep, -⟩
  · obtain rfl := h.idle hw
    rcases recorded_ok hexit with ⟨-, -, rfl⟩ | ⟨_, hw', -, -⟩ | ⟨_, _, -, hstep, -⟩
    · exact of_failed hw
    · rw [hw'] at hw
      cases hw
    · cases hstep
  · rw [visit_modify] at hstep
    subst hstep
    rcases recorded_ok hexit with ⟨hw2, -, rfl⟩ | ⟨s', hw2, hstep, rfl⟩ | ⟨_, _, -, hstep, -⟩
    · obtain ⟨e, he⟩ := Option.isSome_iff_exists.mp hw2
      obtain ⟨s2, failure⟩ := w'
      subst he
      exact of_refusal hw (h.blame e rfl rfl)
    · rw [visit_modify] at hstep
      subst hstep
      refine of_ok hw (hback _ _ (h.opened hw2)) ?_ ?_ ?_
      · exact fun k o hold => (hg _ k o).mpr (h.keeps k o hw2 ((hf _ k o).mpr hold))
      · exact fun s hs marked => (hg _ _ _).mpr (h.binds s hs hw2 marked)
      · exact fun k o hnew => (h.fits k o hw2 ((hg _ k o).mp hnew)).imp_left (hf _ k o).mp
    · cases hstep
  · cases hstep

/-- An expression with its parts. -/
theorem expr {x' : Expr} (hkind : x'.kind = x.kind) (hinfo : x'.info = x.info)
    (hface : x'.parts.map Term.face = x.parts.map Term.face)
    (framed : w.failure = none → w.state.opened.head? ≠ some 0)
    (h : Surveyed markers (sightsIn everywhere x.parts) (sightsIn markers.hides x.parts) w w1)
    (hexit : (collector markers file).recording.exitExpr x' position w1 = (.ok action, w'))
    (listed : Bool) : action = .keep ∧ Surveyed markers (sightsIn everywhere [x.term listed])
      (sightsIn markers.hides [x.term listed]) w w' := by
  have framed1 : w1.failure = none → w1.state.opened.head? ≠ some 0 := fun hw1 => by
    rw [h.opened hw1]
    exact framed (h.failure_eq_none hw1)
  obtain ⟨haction, hreport⟩ := report hexit framed1
  refine ⟨haction, ?_⟩
  have own : callSights x'.kind x'.info x'.parts = callSights x.kind x.info x.parts := by
    unfold callSights
    rw [hkind, hinfo, ← operandCount?_map_face, hface, operandCount?_map_face]
  rw [own] at hreport
  simpa [sightsIn, Expr.term, Term.sights] using h.trans hreport

/-- A statement that is left. -/
theorem exitStmt {action : StmtAction} (h : (collector markers file).recording.exitStmt t w = (.ok action, w')) :
    Surveyed markers [] [] w w' := by
  let f : Collecting → Collecting := fun s => { s with stmts := s.stmts.tail }
  have hstep : ∀ s, (collector markers file).exitStmt t s = (.ok {}, f s) := fun _ => rfl
  exact of_silent hstep (fun _ => rfl) (fun _ k _ => by cases k <;> exact Iff.rfl) h

/-- A statement whose parts are walked. -/
theorem statement (henter : Surveyed markers [⟨.handle, t.info.span.start, isHandlerForm t.kind t.parts⟩]
      [⟨.handle, t.info.span.start, isHandlerForm t.kind t.parts⟩] w w1)
    (h : Surveyed markers (sightsIn everywhere t.parts) (sightsIn markers.hides t.parts) w1 w2)
    (hexit : Surveyed markers [] [] w2 w') :
    Surveyed markers (sightsOf everywhere [t.statement]) (sightsOf markers.hides [t.statement]) w w' := by
  refine ((henter.trans h).trans hexit).mono ?_ ?_
  · simp [sightsOf]
  · simp only [sightsOf, Stmt.statement]
    split <;> simp

end Surveyed

/-- A block can be walked as the body of a function; other terms stand in an
open block, or outside functions. -/
def Ready (w : Walk Collecting Fault) (ts : List Term) : Prop :=
  w.failure = none → w.state.opened.head? ≠ some 0 ∨ ∀ t ∈ ts, ∃ info ss, t = .block info ss

theorem Ready.mono {w : Walk Collecting Fault} {ts us : List Term} (h : Ready w ts) (hsub : us ⊆ ts) : Ready w us :=
  fun hw => (h hw).imp_right fun blocks t ht => blocks t (hsub ht)

/-- Collection comes to the nodes that may bear markers. -/
theorem follows_surveyed (markers : Markers) (file : Nat) : Follows (collector markers file).recording
      (fun w ts ts' w' => ts'.map Term.face = ts.map Term.face ∧ (Ready w ts →
        Surveyed markers (sightsIn everywhere ts) (sightsIn markers.hides ts) w w'))
      (fun w ss _ w' => (w.failure = none → w.state.opened.head? ≠ some 0) →
        Surveyed markers (sightsOf everywhere ss) (sightsOf markers.hides ss) w w') where
  nil := ⟨rfl, fun _ => .refl _⟩
  append {ts ts' us us' w w1 w2} h1 h2 := by
    refine ⟨by rw [map_append, map_append, h1.1, h2.1], fun ready => ?_⟩
    have first := h1.2 (ready.mono (subset_append_left ts us))
    have ready1 : Ready w1 us := fun hw1 => by
      rw [first.opened hw1]
      exact ready.mono (subset_append_right ts us) (first.failure_eq_none hw1)
    rw [sightsIn_append, sightsIn_append]
    exact first.trans (h2.2 ready1)
  fixed := ⟨rfl, fun _ => .refl _⟩
  group {kind info parts parts' w w'} h := by
    have length_eq : parts'.length = parts.length := by simpa using congrArg length h.1
    refine ⟨by simp [Term.face, length_eq], fun ready => ?_⟩
    have framed : Ready w parts := fun hw => by
      rcases ready hw with framed | blocks
      · exact .inl framed
      · obtain ⟨_, _, h⟩ := blocks _ (mem_singleton_self _)
        cases h
    simpa [sightsIn, Term.sights] using h.2 framed
  expr {x x' listed slot region action w w1 w'} hkind hinfo fits h hexit := by
    have keep : action = .keep := by
      rcases recorded_ok hexit with ⟨-, rfl, -⟩ | ⟨_, -, hstep, -⟩ | ⟨_, _, -, -, rfl, -⟩
      · rfl
      · exact (exitExpr_collector hstep).1
      · rfl
    subst keep
    have length_eq : x'.parts.length = x.parts.length := by simpa using congrArg length h.1
    refine ⟨by simp [exprTerms_keep, Expr.term, Term.face, hkind, hinfo, length_eq], fun ready => ?_⟩
    have framed : w.failure = none → w.state.opened.head? ≠ some 0 := fun hw => by
      rcases ready hw with framed | blocks
      · exact framed
      · obtain ⟨_, _, h⟩ := blocks _ (mem_singleton_self _)
        cases h
    exact (Surveyed.expr hkind hinfo h.1 framed (h.2 fun hw => .inl (framed hw)) hexit listed).2
  func {sig b b' w w1 w2 w3} henter h hexit := by
    refine ⟨h.1, fun _ => ?_⟩
    have body : Ready w1 [b.term] := fun _ => .inr fun t ht => by
      obtain rfl := mem_singleton.mp ht
      obtain ⟨info, ss⟩ := b
      exact ⟨info, statements ss, rfl⟩
    refine .around (fun s k o => ?_) (fun s k o => ?_) (fun s s' hs' => ?_) henter (h.2 body) hexit
    · cases k <;> exact Iff.rfl
    · cases k <;> exact Iff.rfl
    · rw [Collecting.opened_popFunc, hs']
      rfl
  block {info ss ss' w w1 w2 w3} henter h hexit := by
    refine ⟨rfl, fun _ => ?_⟩
    have framed : w1.failure = none → w1.state.opened.head? ≠ some 0 := by
      rcases recorded_ok henter with ⟨hw, -, rfl⟩ | ⟨_, -, hstep, rfl⟩ | ⟨_, _, -, hstep, -⟩
      · intro hw1
        rw [hw1] at hw
        cases hw
      · cases hstep
        intro _
        rw [Collecting.opened_pushBlock]
        cases w.state.opened <;> simp
      · cases hstep
    have inside := h framed
    have walked : Surveyed markers (sightsOf everywhere (statements ss))
        (sightsOf markers.hides (statements ss)) w w3 := by
      refine .around (fun s k o => ?_) (fun s k o => ?_) (fun s s' hs' => ?_) henter inside hexit
      · cases k <;> exact Iff.rfl
      · unfold Collecting.popBlock
        split <;> cases k <;> exact Iff.rfl
      · rw [Collecting.opened_popBlock, hs', Collecting.opened_pushBlock]
        cases s.opened <;> rfl
    simpa [sightsIn, Term.sights] using walked
  done _ := .refl _
  andThen {ss ss' ts ts' w w1 w2} h1 h2 framed := by
    have first := h1 framed
    rw [sightsOf_append, sightsOf_append]
    refine first.trans (h2 fun hw1 => ?_)
    rw [first.opened hw1]
    exact framed (first.failure_eq_none hw1)
  removed {t w w'} henter framed := by
    obtain ⟨hremove, hsight⟩ := Surveyed.enter henter
    obtain ⟨-, marked⟩ := hremove.resolve_left (by simp)
    have hides : markers.hides t.info.span.start = true := marked
    refine hsight.mono ?_ ?_
    · simp [sightsOf]
    · simp [sightsOf, hides]
  skipped {t w w'} henter := by
    rcases (Surveyed.enter henter).1 with h | ⟨h, -⟩ <;> cases h
  stmt {t t' action w w1 w2 w3} hne hkind hinfo henter h hexit framed := by
    have hsight := (Surveyed.enter henter).2
    refine .statement hsight (h.2 fun hw1 => .inl ?_) (.exitStmt hexit)
    rw [hsight.opened hw1]
    exact framed (hsight.failure_eq_none hw1)
  exprStmt {info x x' action act w w1 w2 w3 w4} hkind hinfo henter h hx hexit framed := by
    have hsight := (Surveyed.enter henter).2
    have framed1 : w1.failure = none → w1.state.opened.head? ≠ some 0 := fun hw1 => by
      rw [hsight.opened hw1]
      exact framed (hsight.failure_eq_none hw1)
    have hexpr := Surveyed.expr hkind hinfo h.1 framed1 (h.2 fun hw1 => .inl (framed1 hw1)) hx false
    exact .statement hsight hexpr.2 (.exitStmt hexit)

/-! ## Files and packages -/

section Files

variable {markers : Markers} {file : Nat} {tree tree' : File} {out' : Collected} {fault : Fault}

theorem walkFile_surveyed (markers : Markers) (file : Nat) (tree : File) (out : Collected) :
    Surveyed markers (tree.term.sights everywhere) (tree.term.sights markers.hides) ⟨{ out }, none⟩
      (walkFile (collector markers file) tree ⟨{ out }, none⟩).2 := by
  have h := ((follows_surveyed markers file).inFile tree
    (succeeds_recording (collector markers file) tree ⟨{ out }, none⟩)).2 fun _ => .inl nofun
  simpa [sightsIn] using h

/-- A marker that is reported has no node. -/
theorem unclaimed?_eq_some {s : Collecting} {k : MarkerKind}
    (h : unclaimed? markers s = some (k, o)) : markers.At k o ∧ ¬s.Bound k o := by
  unfold unclaimed? at h
  rw [Option.or_eq_some_iff] at h
  rcases h with h | ⟨-, h⟩
  · obtain ⟨_, hfind, heq⟩ := Option.map_eq_some_iff.mp h
    cases heq
    refine ⟨TreeSet.mem_toList.mp (mem_of_find?_eq_some hfind), ?_⟩
    exact Bool.eq_false_iff.mp (by simpa using find?_some hfind)
  · obtain ⟨_, hfind, heq⟩ := Option.map_eq_some_iff.mp h
    cases heq
    refine ⟨?_, Bool.eq_false_iff.mp (by simpa using find?_some hfind)⟩
    obtain ⟨⟨o, name⟩, hmem, rfl⟩ := mem_map.mp (mem_of_find?_eq_some hfind)
    exact Markers.at_handle_iff.mpr ⟨name, TreeMap.mem_toList_iff_getElem?_eq_some.mp hmem⟩

/-- A marker that lands is refused for its position only. -/
theorem collectFile_error (h : collectFile markers file tree out = .error fault)
    (land : markers.Land tree) : fault.cause.IsPosition := by
  have surveyed := walkFile_surveyed markers file tree out
  unfold collectFile at h
  rcases hwalk : walkFile (collector markers file) tree ⟨{ out }, none⟩ with ⟨tree1, s', failure⟩
  rw [hwalk] at h surveyed
  cases failure with
  | some e =>
    cases h
    rcases surveyed.blame fault rfl rfl with position | ⟨g, hg, marked, unfit⟩
    · exact position
    · rw [land.fit g hg marked] at unfit
      cases unfit
  | none =>
    simp only at h
    split at h
    · rename_i k o hunclaimed
      obtain ⟨marked, unbound⟩ := unclaimed?_eq_some hunclaimed
      obtain ⟨g, hg, rfl, rfl⟩ := land.met k o marked
      exact absurd (surveyed.binds g hg rfl marked) unbound
    · cases h

/-- Where collection succeeds, every marker has a node of its form. -/
theorem collectFile_fits (h : collectFile markers file tree out = .ok (tree', out')) : markers.Fit tree := by
  intro k o marked
  obtain ⟨s', hwalk, claimed, -⟩ := collectFile_walk h
  have surveyed := walkFile_surveyed markers file tree out
  rw [show walkFile (collector markers file) tree ⟨{ out }, none⟩ = _ from hwalk] at surveyed
  obtain ⟨checks, handles⟩ := unclaimed?_eq_none claimed
  have bound : s'.Bound k o := by
    cases k with
    | check => exact checks o marked
    | handle =>
      obtain ⟨name, hname⟩ := Markers.at_handle_iff.mp marked
      exact handles o name hname
  rcases surveyed.fits k o rfl bound with before | hg
  · cases k <;> simp [Collecting.Bound] at before
  · exact hg

end Files

section Packages

/-- The markers of a marked file. -/
def SourceFile.markers (f : SourceFile) : Markers := (f.lowered.map Lowered.markers).getD {}

theorem collectFiles_error {e : Failure} (h : collectFiles index out files = .error e) :
    ∃ f ∈ files, ∃ file out fault, collectFile f.markers file f.tree out = .error fault ∧ e.cause = fault.cause := by
  induction files generalizing index out with
  | nil => cases h
  | cons f files ih =>
    have later : ∀ {index out}, collectFiles index out files = .error e →
        ∃ g ∈ f :: files, ∃ file out fault, collectFile g.markers file g.tree out = .error fault ∧
          e.cause = fault.cause := by
      intro index out h
      obtain ⟨g, hg, found⟩ := ih h
      exact ⟨g, mem_cons_of_mem _ hg, found⟩
    unfold collectFiles at h
    split at h
    · exact later (error_of_bind h fun _ => by rintro ⟨⟩)
    · rename_i l hl
      have hmarkers : f.markers = l.markers := by simp [SourceFile.markers, hl]
      split at h
      · rename_i fault hcollect
        cases h
        exact ⟨f, mem_cons_self, index, out, fault, by rw [hmarkers, hcollect], rfl⟩
      · exact later (error_of_bind h fun _ => by rintro ⟨⟩)

theorem collectFiles_fits {out' : Collected} {files' : List SourceFile}
    (h : collectFiles index out files = .ok (files', out')) : ∀ f ∈ files, f.markers.Fit f.tree := by
  induction files generalizing index out files' with
  | nil => nofun
  | cons f files ih =>
    obtain ⟨_, _, _, ⟨hl, -, -⟩ | ⟨l, tree, hl, hcollect, -⟩, hrest, -⟩ := collectFiles_cons h
    · have none : f.markers = {} := by simp [SourceFile.markers, hl]
      refine forall_mem_cons.mpr ⟨?_, ih hrest⟩
      rw [none]
      intro k o marked
      cases k <;> simp [Markers.At] at marked
    · have hmarkers : f.markers = l.markers := by simp [SourceFile.markers, hl]
      refine forall_mem_cons.mpr ⟨?_, ih hrest⟩
      rw [hmarkers]
      exact collectFile_fits hcollect

/-- A marked file is read from the lowered form of its source. -/
theorem lower_of_readSource {input : SourceInput} {f : SourceFile} {l : Lowered} {n n' : NodeId}
    (h : readSource n input = .ok (f, n')) (hl : f.lowered = some l) : lower input.text = .ok l := by
  obtain ⟨lowered, tree, hlowered, -, rfl⟩ := readSource_ok h
  obtain rfl : lowered = some l := hl
  unfold lowerInput at hlowered
  split at hlowered
  · split at hlowered
    · cases hlowered
      assumption
    · cases hlowered
  · cases hlowered

/-- **Markers and internal failures.** Every marker of a package that has been read stands where the
lowered text has its words. Collection fails for the position of a marker only, unless a marker does
not land on a node of its form; and where it succeeds, every marker has such a node. -/
theorem collect_landing {inputs : List SourceInput} {p : Package} (h : Package.assemble inputs = .ok p) :
    (∀ f ∈ p.files, ∀ l, f.lowered = some l → ∀ k o, l.markers.At k o →
      ∃ before after, l.text.toList = before ++ (k.text.toList ++ after) ∧ Text.byteLength before = o) ∧
    (∀ e, p.collect = .error e → (∃ place, e.cause = .unsupportedPosition place) ∨
      ∃ f ∈ p.files, ¬f.markers.Land f.tree) ∧
    ∀ r, p.collect = .ok r → ∀ f ∈ p.files, f.markers.Fit f.tree := by
  refine ⟨fun f hf l hl k o marked => ?_, fun e he => ?_, fun r hr => ?_⟩
  · obtain ⟨input, -, n, n', hread⟩ := readSources_mem (assemble_files h) hf
    exact lower_marks (lower_of_readSource hread hl) marked
  · have hfiles := error_of_bind he fun _ => nofun
    obtain ⟨f, hf, file, out, fault, hcollect, hcause⟩ := collectFiles_error hfiles
    by_cases land : f.markers.Land f.tree
    · rw [hcause]
      exact .inl (collectFile_error hcollect land)
    · exact .inr ⟨f, hf, land⟩
  · exact collectFiles_fits (collect_files hr).2

/-- Why the markers of a package that is read are not collected. -/
def refusedCause (inputs : List SourceInput) : Option Cause :=
  match Package.assemble inputs with
  | .error _ => none
  | .ok p =>
    match p.collect with
    | .error e => some e.cause
    | .ok _ => none

/-- A parameter may be named like the check function: the parentheses after it
hold its type. -/
theorem collect_landing_checkedParameter :
    ∃ p e, Package.assemble [⟨"a.go2", "package m;func f(check int)\x7b\x7d", true⟩] = .ok p ∧
      p.collect = .error e ∧ e.cause = .markerUnclaimed .check 17 ∧ e.cause.category = .shape ∧
      ∃ f ∈ p.files, ¬f.markers.Land f.tree := by
  have run : refusedCause [⟨"a.go2", "package m;func f(check int)\x7b\x7d", true⟩] =
      some (.markerUnclaimed .check 17) := by decide +kernel
  unfold refusedCause at run
  split at run
  · cases run
  · rename_i p hp
    split at run
    · rename_i e he
      have hcause := Option.some.inj run
      refine ⟨p, e, hp, he, hcause, by rw [hcause]; rfl, ?_⟩
      refine ((collect_landing hp).2.1 e he).resolve_left ?_
      rintro ⟨place, hplace⟩
      rw [hcause] at hplace
      cases hplace
    · cases run

end Packages

end CheckHandle
