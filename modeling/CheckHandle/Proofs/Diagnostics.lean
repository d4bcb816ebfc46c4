import CheckHandle.Proofs.Landing
import CheckHandle.Proofs.Progress
import CheckHandle.Proofs.Translated

/-!
# Failures point into their file

Every failure that belongs to a file has its span in the text as the user wrote
it. Reading fails at a token of the source, at an offset that the grammar has
come to, or at a tree that it has matched. Collection and expansion fail at nodes
that were read from the lowered text, or at a marker of it: the nodes that an
expansion makes have identities that no check has, so a pass never fails at them.
-/

namespace CheckHandle

open Std Text List

open Build (Yields)

/-! ## Reading a text -/

theorem layout_fault {text : String} {fault : Fault} (h : layout text = .error fault) :
    fault.span.Between 0 (byteLength text.toList) := by
  simp only [layout] at h
  split at h
  · rename_i f hfault
    cases h
    exact (scan_inside .plain text).fault _ hfault
  · cases h

theorem byteLength_layout {text laid : String} (h : layout text = .ok laid) :
    byteLength laid.toList = byteLength text.toList := by
  obtain ⟨ps, cut, hlaid⟩ := layout_ok h
  rw [hlaid, (laid_layoutFrom cut.reads.formed.text_ne_nil false).byteLength_eq, ← cut.text_eq]

/-- A file that is read lies in its text, and reading fails there. -/
theorem parseFile_yields (text : String) :
    Yields (fun e => e.span.Between 0 (byteLength text.toList)) (File.Laid (fun _ => True) (byteLength text.toList))
      (parseFile text) := by
  unfold parseFile
  split
  · rename_i fault hfault
    exact .fail (layout_fault hfault)
  · rename_i laid hlaid
    rw [← byteLength_layout hlaid]
    exact (matchFile_yields laid).mono (fun _ h => h.elim matchInput_fits.1 Fault.Reported.span) fun _ => id

/-! ## Files and their inputs -/

namespace SourceInput

/-- The lowered form of a marked input, if it has one. -/
def lowered? (input : SourceInput) : Option Lowered :=
  match lowerInput input with
  | .ok l => l
  | .error _ => none

/-- How many bytes are parsed: those of the lowered text, if there is one. -/
def size (input : SourceInput) : Nat :=
  byteLength ((input.lowered?.map Lowered.text).getD input.text).toList

/-- Where spans of the parsed text belong. -/
def site (input : SourceInput) (phase : Phase) : Site := ⟨input.path, phase, input.lowered?.map Lowered.offsets⟩

end SourceInput

variable {input : SourceInput} {f : SourceFile} {e : Failure} {expected : Option String}

theorem lower_of_lowered? {l : Lowered} (h : input.lowered? = some l) : lower input.text = .ok l := by
  unfold SourceInput.lowered? lowerInput at h
  split at h
  · rename_i hlowered
    subst h
    split at hlowered
    · split at hlowered
      · rename_i hl
        cases hlowered
        exact hl
      · cases hlowered
    · cases hlowered
  · cases h

/-- The failure names this input, its span lies in the input's text, and it stands
for a span of the text that was parsed. -/
structure Failure.PointsInto (e : Failure) (input : SourceInput) : Prop where
  source : e.source = input.path
  span : e.span.Between 0 (byteLength input.text.toList)
  translated : ∃ s : Span, s.start ≤ input.size ∧ s.stop ≤ input.size ∧ e.span = (input.site e.phase).sourceSpan s

/-- A span of the parsed text lies in it. In lowered texts it may end before it
starts. -/
structure Span.Parsed (input : SourceInput) (s : Span) : Prop where
  start : s.start ≤ input.size
  stop : s.stop ≤ input.size
  ordered : input.lowered? = none → s.start ≤ s.stop

theorem Span.Between.parsed {s : Span} (h : s.Between 0 input.size) : s.Parsed input :=
  ⟨h.ordered.trans h.upper, h.upper, fun _ => h.ordered⟩

/-- **Translated spans lie in the source.** -/
theorem Span.Parsed.pointsInto {fault : Fault} (h : fault.span.Parsed input) (phase : Phase) :
    ((input.site phase).locate fault).PointsInto input := by
  refine ⟨rfl, ?_, fault.span, h.start, h.stop, rfl⟩
  obtain ⟨start, stop, ordered⟩ := h
  show Span.Between 0 _ ((input.site phase).sourceSpan fault.span)
  unfold Site.sourceSpan SourceInput.site
  unfold SourceInput.size at start stop
  cases hl : input.lowered? with
  | none =>
    rw [hl] at stop
    exact ⟨Nat.zero_le _, ordered hl, stop⟩
  | some l =>
    rw [hl] at start stop
    have first := lower_toSource_le (lower_of_lowered? hl) start
    have last := lower_toSource_le (lower_of_lowered? hl) stop
    exact ⟨Nat.zero_le _, Nat.le_max_right _ _, Nat.max_le.mpr ⟨last, first⟩⟩

/-! ## Reading files -/

/-- The file stands for this input, whatever has become of its tree. -/
structure SourceFile.Of (f : SourceFile) (input : SourceInput) : Prop where
  path : f.path = input.path
  text : f.text = input.text
  lowered : lowerInput input = .ok f.lowered

theorem SourceFile.Of.lowered? (h : f.Of input) : input.lowered? = f.lowered := by
  rw [SourceInput.lowered?, h.lowered]

theorem SourceFile.Of.site_eq (h : f.Of input) (phase : Phase) : f.site phase = input.site phase := by
  rw [SourceFile.site, SourceInput.site, h.path, h.lowered?]

theorem lowerInput_error (h : lowerInput input = .error e) : e.PointsInto input := by
  have failed : input.lowered? = none := by rw [SourceInput.lowered?, h]
  unfold lowerInput at h
  split at h
  · split at h
    · cases h
    · rename_i fault hfault
      cases h
      have inside := lower_fault hfault
      have size : input.size = byteLength input.text.toList := by
        rw [SourceInput.size, failed]
        rfl
      have here : (⟨input.path, .lower, none⟩ : Site) = input.site .lower := by
        rw [SourceInput.site, failed]
        rfl
      rw [here]
      exact Span.Parsed.pointsInto (size ▸ inside).parsed .lower
  · cases h

/-- What reading an input gives: a file whose nodes lie in the parsed text, or a
failure that points into the input. -/
theorem readSource_cases (next : NodeId) (input : SourceInput) :
    (∃ e, readSource next input = .error e ∧ e.PointsInto input) ∨
    ∃ f next', readSource next input = .ok (f, next') ∧ f.Of input ∧ f.tree.Laid (fun _ => True) input.size := by
  cases hlower : lowerInput input with
  | error e =>
    refine .inl ⟨e, ?_, lowerInput_error hlower⟩
    rw [readSource, hlower]
    rfl
  | ok lowered =>
    obtain rfl : input.lowered? = lowered := by rw [SourceInput.lowered?, hlower]
    have parse := parseFile_yields ((input.lowered?.map Lowered.text).getD input.text) next
    rw [readSource_eq hlower]
    split at parse
    · rename_i tree next' hparse
      rw [hparse]
      exact .inr ⟨_, next', rfl, ⟨rfl, rfl, hlower⟩, parse⟩
    · rename_i fault hparse
      rw [hparse]
      exact .inl ⟨_, rfl, Span.Parsed.pointsInto (Span.Between.parsed parse) .parse⟩

theorem checkPackageName_error (of : f.Of input) (located : f.tree.Laid (fun _ => True) input.size)
    (h : checkPackageName expected f = .error e) :
    e.PointsInto input := by
  unfold checkPackageName at h
  split at h
  · cases h
  · dsimp only at h
    split at h
    · cases h
    · cases h
      rw [of.site_eq]
      exact Span.Parsed.pointsInto located.package.parsed .parse

/-- The inputs up to one are read, and that one is not. -/
theorem readSources_error {next : NodeId} {inputs : List SourceInput}
    (h : readSources expected next inputs = .error e) :
    ∃ before input after, inputs = before ++ input :: after ∧ (∃ r, readSources expected next before = .ok r) ∧
      readSources expected next (before ++ [input]) = .error e ∧ e.PointsInto input := by
  induction inputs generalizing expected next with
  | nil => cases h
  | cons input inputs ih =>
    have first {e' : Failure} (failed : ∀ others, readSources expected next (input :: others) = .error e')
        (points : e'.PointsInto input) : ∃ before input' after, input :: inputs = before ++ input' :: after ∧
          (∃ r, readSources expected next before = .ok r) ∧
          readSources expected next (before ++ [input']) = .error e ∧ e.PointsInto input' := by
      obtain rfl : e' = e := Except.error.inj ((failed inputs).symm.trans h)
      exact ⟨[], input, inputs, rfl, ⟨_, rfl⟩, failed [], points⟩
    rcases readSource_cases next input with ⟨e', hread, points⟩ | ⟨f, next', hread, of, located⟩
    · refine first (fun others => ?_) points
      rw [readSources, hread]
      rfl
    · have read : ∀ others, readSources expected next (input :: others) = (do
          checkPackageName expected f
          let r ← readSources (expected.or (some f.tree.package.name)) next' others
          return (f :: r.1, r.2)) := by
        intro others
        rw [readSources, hread]
        rfl
      cases hname : checkPackageName expected f with
      | error e' =>
        refine first (fun others => ?_) (checkPackageName_error of located hname)
        rw [read, hname]
        rfl
      | ok u =>
        have goOn : ∀ {others}, readSources expected next (input :: others) = (do
            let r ← readSources (expected.or (some f.tree.package.name)) next' others
            return (f :: r.1, r.2)) := by
          intro others
          rw [read, hname]
          rfl
        rw [goOn] at h
        obtain ⟨before, input', after, rfl, ⟨r, hbefore⟩, hfails, points⟩ := ih (error_of_bind h fun _ => by rintro ⟨⟩)
        refine ⟨input :: before, input', after, rfl, ⟨(f :: r.1, r.2), ?_⟩, ?_, points⟩
        · rw [goOn, hbefore]
          rfl
        · rw [cons_append, goOn, hfails]
          rfl

/-! ## Where steps of a walk fail -/

/-- Whenever the step fails, it does so at this span. -/
def FailsAt {σ α : Type} (span : Span) (m : VisitM σ Fault α) : Prop := ∀ ⦃s e s'⦄, m s = (.error e, s') → e.span = span

namespace FailsAt

variable {σ α β : Type} {span : Span}

theorem pure {a : α} : FailsAt span (pure a : VisitM σ Fault α) := nofun

theorem get : FailsAt span (get : VisitM σ Fault σ) := nofun

theorem set {s : σ} : FailsAt span (set s : VisitM σ Fault PUnit) := nofun

theorem modify {f : σ → σ} : FailsAt span (modify f : VisitM σ Fault PUnit) := nofun

theorem refuse {cause : Cause} : FailsAt span (refuse cause span : VisitM σ Fault α) := by
  intro s e s' h
  cases h
  rfl

theorem refuseInternal {cause : Cause} : FailsAt span (refuseInternal cause span : VisitM σ Fault α) := by
  intro s e s' h
  cases h
  rfl

theorem bind {m : VisitM σ Fault α} {f : α → VisitM σ Fault β} (hm : FailsAt span m)
    (hf : ∀ a, FailsAt span (f a)) : FailsAt span (m >>= f) := by
  intro s e s' h
  rcases visit_bind_error.mp h with h | ⟨a, s1, -, h⟩
  · exact hm h
  · exact hf a h

/-- What follows a refusal does not matter. -/
theorem refuse_bind {cause : Cause} {f : α → VisitM σ Fault β} :
    FailsAt span (CheckHandle.refuse cause span >>= f) := by
  intro s e s' h
  cases h
  rfl

theorem refuseInternal_bind {cause : Cause} {f : α → VisitM σ Fault β} :
    FailsAt span (CheckHandle.refuseInternal cause span >>= f) := by
  intro s e s' h
  cases h
  rfl

end FailsAt

theorem collectHandler_failsAt (t : Stmt) (errName : String) : FailsAt t.info.span (collectHandler t errName) := by
  unfold collectHandler
  dsimp only
  split
  · exact .refuseInternal
  · refine .bind .get fun s => .bind .set fun _ => ?_
    split
    · exact .refuse
    · exact .bind .set fun _ => .pure

theorem collectCheck_failsAt (file : Nat) (x : Expr) (region : Region) :
    FailsAt x.info.span (collectCheck file x region) := by
  unfold collectCheck
  dsimp only
  split
  · exact .refuse_bind
  split
  · exact .refuseInternal_bind
  refine .bind .get fun s => ?_
  split
  · split
    · exact .refuseInternal
    · exact .set
  · exact .refuse

theorem enterStmt_failsAt (markers : Markers) (file : Nat) (t : Stmt) :
    FailsAt t.info.span ((collector markers file).enterStmt t) := by
  intro s e s' h
  rw [enterStmt_eq] at h
  split at h
  · cases h
  · split at h
    · cases h
    · exact collectHandler_failsAt _ _ h

theorem exitExpr_failsAt (markers : Markers) (file : Nat) (x : Expr) (position : Position) :
    FailsAt x.info.span ((collector markers file).exitExpr x position) := by
  refine .bind .get fun s => .bind .set fun _ => ?_
  dsimp only
  split
  · exact .bind .set fun _ => .bind (collectCheck_failsAt file x _) fun _ => .pure
  · exact .pure

theorem drawIds_failsAt {α : Type} (span : Span) (m : Fresh α) : FailsAt span (drawIds m) :=
  .bind .get fun _ => .bind .set fun _ => .pure

theorem placeResults_failsAt (x : Expr) (slot : Slot) (values : List String) (errVar : String) :
    FailsAt x.info.span (placeResults x slot values errVar) := by
  unfold placeResults
  split
  · exact .bind .modify fun _ => .pure
  · split
    · refine .bind .get fun s => ?_
      split
      · exact .refuse_bind
      · exact .bind .set fun _ => .bind (drawIds_failsAt _ _) fun _ => .pure
    · exact .bind (drawIds_failsAt _ _) fun _ => .pure
  · split
    · exact .refuse
    · exact .bind (drawIds_failsAt _ _) fun _ => .pure

theorem expandCheck_failsAt (info : TypeInfo) (x : Expr) (slot : Slot) (binding : CheckBinding) (ty : Ty) :
    FailsAt x.info.span (expandCheck info x slot binding ty) := by
  unfold expandCheck
  split
  · exact .refuse
  · refine .bind (.bind .get fun _ => .bind .set fun _ => .pure) fun names => ?_
    dsimp only
    split
    · exact .bind (placeResults_failsAt x slot _ _) fun _ => .bind .get fun _ =>
        .bind (drawIds_failsAt _ _) fun _ => .bind .modify fun _ => .bind .modify fun _ => .pure
    · exact .refuseInternal

/-- A pass fails at a check that is pending. -/
theorem expander_fault {info : TypeInfo} {file : Nat} {x : Expr} {position : Position} {s s' : Expanding}
    {e : Fault} (h : (expander info file).exitExpr x position s = (.error e, s')) :
    e.span = x.info.span ∧ ∃ b, s.shared.collected.checks.get? x.info.id = some b := by
  simp only [expander, visit_bind_error, visit_get] at h
  rcases h with h | ⟨_, _, ⟨rfl, rfl⟩, h⟩
  · cases h
  rename_i s
  cases hb : s.shared.collected.checks.get? x.info.id with
  | none =>
    simp only [hb] at h
    cases h
  | some b =>
    refine ⟨?_, b, rfl⟩
    simp only [hb] at h
    split at h
    · cases h
    cases hty : info.typeOf x.info.id with
    | none =>
      simp only [hty] at h
      cases h
    | some ty =>
      simp only [hty, visit_bind_error, visit_set] at h
      rcases h with h | ⟨_, _, -, h⟩
      · cases h
      · exact expandCheck_failsAt info x _ b ty h

/-! ## Collection -/

/-- The checks have identities below `n`, and lie in what is parsed of the marked
inputs that they belong to. -/
def ChecksWithin (inputs : List SourceInput) (n : NodeId) (checks : TreeMap NodeId CheckBinding) : Prop :=
  ∀ id b, checks.get? id = some b → id < n ∧
    ∃ input, inputs[b.file]? = some input ∧ input.lowered?.isSome = true ∧ b.span.Parsed input

theorem ChecksWithin.erase {inputs : List SourceInput} {n : NodeId} {checks : TreeMap NodeId CheckBinding}
    (h : ChecksWithin inputs n checks) (id : NodeId) : ChecksWithin inputs n (checks.erase id) := by
  intro i b hb
  rw [TreeMap.get?_eq_getElem?, TreeMap.getElem?_erase] at hb
  split at hb
  · cases hb
  · exact h i b hb

section Passes

variable {inputs : List SourceInput} {file : Nat} {n : NodeId}

/-- A node of a lowered text lies in it. -/
theorem Info.Below.parsed {info : Info} (h : info.Below input.size) (marked : input.lowered?.isSome = true) :
    info.span.Parsed input := by
  refine ⟨h.1, h.2, fun plain => ?_⟩
  rw [plain] at marked
  cases marked

/-- **Collection fails at nodes and binds checks at nodes.** -/
theorem collector_respects (here : inputs[file]? = some input) (marked : input.lowered?.isSome = true)
    (markers : Markers) :
    Respects (collector markers file) (fun info => info.Below input.size ∧ info.id < n)
      (fun s => ChecksWithin inputs n s.out.checks) (fun e => e.span.Parsed input) where
  enterFunc _ _ hs := ⟨trivial, hs⟩
  exitFunc hs := ⟨trivial, hs⟩
  enterBlock _ _ hs := ⟨trivial, hs⟩
  exitBlock _ s hs := by
    refine ⟨trivial, ?_⟩
    unfold Collecting.popBlock
    split
    · exact hs
    · exact hs
  enterStmt t s ht hs := by
    rcases h : (collector markers file).enterStmt t s with ⟨e | enter, s'⟩
    · show e.span.Parsed input
      rw [enterStmt_failsAt markers file t h]
      exact ht.1.parsed marked
    · refine ⟨trivial, ?_⟩
      rcases enterStmt_collector h with ⟨-, ownership, rfl⟩ | ⟨-, errName, body, func, funcs, block,
        blocks, -, -, -, -, -, rfl⟩
      · exact hs
      · exact hs
  exitStmt _ _ hs := ⟨nofun, hs⟩
  exitExpr x position s hx hs := by
    rcases h : (collector markers file).exitExpr x position s with ⟨e | action, s'⟩
    · show e.span.Parsed input
      rw [exitExpr_failsAt markers file x position h]
      exact hx.1.1.parsed marked
    · obtain ⟨rfl, ownership, rfl | ⟨operand, func, funcs, stmt, stmts, block, -, -, -, -, -, -, -, rfl⟩⟩ :=
        exitExpr_collector h
      · exact ⟨nofun, hs⟩
      · refine ⟨nofun, fun id b hb => ?_⟩
        rw [TreeMap.get?_eq_getElem?, TreeMap.getElem?_insert] at hb
        split at hb
        · rename_i heq
          obtain rfl : x.info.id = id := by simpa using heq
          cases hb
          exact ⟨hx.1.2, input, here, marked, hx.1.1.parsed marked⟩
        · exact hs id b hb

/-! ## Expansion -/

/-- The node was made by an expansion, or lies in the parsed text. -/
def Info.NewOr (n : NodeId) (size : Nat) (info : Info) : Prop := n ≤ info.id ∨ info.Below size

/-- What a pass keeps: the counter is above all that was read, the checks are
those that were read, and what goes before a statement has its nodes from there
or is new. -/
structure Expanding.Kept (inputs : List SourceInput) (n : NodeId) (size : Nat) (s : Expanding) : Prop where
  counter : n ≤ s.shared.nextId
  checks : ChecksWithin inputs n s.shared.collected.checks
  frames : ∀ frame ∈ s.frames, ∀ t ∈ frame.before, t.info.NewOr n size ∧ t.Everywhere (Info.NewOr n size)

/-- New nodes have identities from the counter on. -/
theorem new_of_count {m m' i k : Nat} (fresh : k + spare m' i ≤ spare m i) (pos : 0 < k) : m ≤ i := by
  by_contra h
  rw [spare_eq_zero (Nat.lt_of_not_le h)] at fresh
  omega

/-- What is made for a check has nodes from the counter on. -/
theorem Expanded.Made.everywhere {info : TypeInfo} {collected : Collected} {binding : CheckBinding} {slot : Slot}
    {values : List String} {errVar : String} {m m' : NodeId} {e : Expanded}
    (made : e.Made info collected binding slot values errVar m m') (counter : n ≤ m) (size : Nat) :
    (∀ x ∈ e.names, x.Everywhere (Info.NewOr n size)) ∧ e.define.NewOr n size ∧
      (e.guard.info.NewOr n size ∧ e.guard.Everywhere (Info.NewOr n size)) ∧
      ∀ x ∈ e.uses.getD [], x.Everywhere (Info.NewOr n size) := by
  have new : ∀ i : Info, 0 < e.count i.id → i.NewOr n size := fun i pos =>
    .inl (counter.trans (new_of_count (made.fresh i.id) pos))
  refine ⟨?_, new e.define ?_, ?_, ?_⟩
  · refine (everywhere_exprTerms false e.names).mp (everywhereTerms_of_count fun i pos => new i ?_)
    rw [countAll_exprs] at pos
    simp only [Expanded.count]
    omega
  · simp only [Expanded.count, Info.count_self]
    omega
  · refine (everywhere_statement e.guard).mp (everywhereIn_of_count fun i pos => new i ?_)
    have := e.guard.count_parts i.id
    simp only [Stmt.statement, countIn] at pos
    simp only [Expanded.count]
    omega
  · refine (everywhere_exprTerms false _).mp (everywhereTerms_of_count fun i pos => new i ?_)
    rw [countAll_exprs] at pos
    simp only [Expanded.count]
    omega

theorem given_action (e : Expanded) : e.action.given = e.uses.getD [] := by
  unfold Expanded.action
  split
  · rename_i huses
    rw [huses]
    rfl
  · rename_i huses
    rw [huses]
    rfl
  · rename_i huses
    rw [huses]
    rfl

theorem forall_mem_modifyHead {Q : StmtFrame → Prop} {change : StmtFrame → StmtFrame} {frames : List StmtFrame}
    (h : ∀ frame ∈ frames, Q frame) (keeps : ∀ frame, Q frame → Q (change frame)) :
    ∀ frame ∈ frames.modifyHead change, Q frame := by
  cases frames with
  | nil => exact h
  | cons frame frames =>
    obtain ⟨first, rest⟩ := forall_mem_cons.mp h
    exact forall_mem_cons.mpr ⟨keeps frame first, rest⟩

/-- The operand of a check is one of its nodes. -/
theorem everywhere_operand {P : Info → Prop} {x operand : Expr} (hx : x.Everywhere P)
    (args : x.argsOf? checkFunc = some [operand]) : operand.Everywhere P := by
  obtain ⟨fn, hparts⟩ := Expr.parts_of_argsOf? args
  have inside := hx.2
  rw [hparts] at inside
  simp only [everywhere_cons, everywhere_group, everywhere_term, everywhere_nil, and_true] at inside
  exact inside.2

/-- **A pass fails at nodes that were read.** -/
theorem expander_respects (marked : input.lowered?.isSome = true) (info : TypeInfo) (file : Nat) :
    Respects (expander info file) (Info.NewOr n input.size) (Expanding.Kept inputs n input.size)
      (fun e => e.span.Parsed input) where
  enterFunc _ _ hs := ⟨trivial, hs⟩
  exitFunc hs := ⟨trivial, hs⟩
  enterBlock _ _ hs := ⟨trivial, hs⟩
  exitBlock _ _ hs := ⟨trivial, hs⟩
  enterStmt _ _ _ hs := ⟨trivial, hs.counter, hs.checks, forall_mem_cons.mpr ⟨nofun, hs.frames⟩⟩
  exitStmt t s hs := by
    obtain ⟨shared, frames, expanded⟩ := s
    cases frames with
    | nil => exact ⟨nofun, hs⟩
    | cons frame frames =>
      obtain ⟨first, rest⟩ := forall_mem_cons.mp hs.frames
      exact ⟨first, hs.counter, hs.checks, rest⟩
  exitExpr x position s hx hs := by
    rcases h : (expander info file).exitExpr x position s with ⟨e | action, s'⟩
    · show e.span.Parsed input
      obtain ⟨hspan, b, hb⟩ := expander_fault h
      -- A pending check was read, so its node is not new.
      have old := (hs.checks _ b hb).1
      rw [hspan]
      rcases hx.1 with new | below
      · exact absurd old (Nat.not_lt.mpr new)
      · exact below.parsed marked
    · cases answers_of_exitExpr h with
      | keep => exact ⟨nofun, hs⟩
      | wait =>
        exact ⟨nofun, hs.counter, hs.checks, forall_mem_modifyHead hs.frames fun _ hframe => hframe⟩
      | expand pending going typed args made temporary collected frames expanded =>
        obtain ⟨names, define, guard, uses⟩ := made.everywhere hs.counter input.size
        obtain ⟨scopes, hcollected⟩ := collected
        refine ⟨fun y hy => uses y (given_action _ ▸ hy), ?_, ?_, ?_⟩
        · have fresh := made.fresh s'.shared.nextId
          exact hs.counter.trans (le_of_spare (Nat.le_trans (Nat.le_add_left _ _) fresh))
        · rw [hcollected]
          exact hs.checks.erase x.info.id
        · rw [frames]
          refine forall_mem_modifyHead hs.frames fun frame hframe => ?_
          refine forall_mem_append.mpr ⟨hframe, forall_mem_cons.mpr ⟨⟨define, ?_⟩, forall_mem_singleton.mpr guard⟩⟩
          simpa [Stmt.Everywhere, Stmt.parts] using ⟨names, everywhere_operand hx args⟩

end Passes

/-! ## Files of a package -/

/-- The files from number `i` on stand for the inputs from there on, and their
nodes are such. -/
def Sited (inputs : List SourceInput) (P : SourceInput → Info → Prop) : Nat → List SourceFile → Prop
  | i, [] => inputs.length ≤ i
  | i, f :: fs =>
    (∃ input, inputs[i]? = some input ∧ f.Of input ∧ f.tree.term.Everywhere (P input)) ∧ Sited inputs P (i + 1) fs

section Packages

variable {inputs : List SourceInput} {P Q : SourceInput → Info → Prop} {n : NodeId}

variable {i : Nat} {files : List SourceFile} {next : NodeId}
  {p : Package} {tree : File} {out collected : Collected} {typing : Typing}

theorem Sited.mono (h : Sited inputs P i files)
    (le : ∀ f ∈ files, ∀ input, f.tree.term.Everywhere (P input) → f.tree.term.Everywhere (Q input)) :
    Sited inputs Q i files := by
  induction files generalizing i with
  | nil => exact h
  | cons f fs ih =>
    obtain ⟨⟨input, here, of, tree⟩, rest⟩ := h
    obtain ⟨first, others⟩ := forall_mem_cons.mp le
    exact ⟨⟨input, here, of, first input tree⟩, ih rest others⟩

/-- Every input has its file. -/
theorem Sited.file {j : Nat} (h : Sited inputs P i files) (here : inputs[i + j]? = some input) :
    ∃ f, files[j]? = some f ∧ f.Of input := by
  induction files generalizing i j with
  | nil =>
    obtain ⟨inside, -⟩ := List.getElem?_eq_some_iff.mp here
    exact absurd inside (Nat.not_lt.mpr (h.trans (Nat.le_add_right _ _)))
  | cons f fs ih =>
    obtain ⟨⟨input', first, of, -⟩, rest⟩ := h
    cases j with
    | zero =>
      obtain rfl : input' = input := Option.some.inj (first.symm.trans here)
      exact ⟨f, rfl, of⟩
    | succ j =>
      rw [Nat.add_comm j 1, ← Nat.add_assoc] at here
      exact ih rest here

theorem readSources_sited {expected : Option String} {next' : NodeId} (before : List SourceInput)
    {rest : List SourceInput} (h : readSources expected next rest = .ok (files, next')) :
    Sited (before ++ rest) (fun input => Info.Below input.size) before.length files := by
  induction rest generalizing expected next before files with
  | nil =>
    cases h
    show (before ++ []).length ≤ before.length
    simp
  | cons input rest ih =>
    obtain ⟨f, next1, expected', files', hread, hrest, rfl⟩ := readSources_cons h
    rcases readSource_cases next input with ⟨e, herror, -⟩ | ⟨f', next2, hok, of, located⟩
    · rw [herror] at hread
      cases hread
    · rw [hok] at hread
      cases hread
      refine ⟨⟨input, ?_, of, located.term.everywhere .refl⟩, ?_⟩
      · simp
      · have others := ih (before ++ [input]) hrest
        simpa using others

theorem count_le_countFiles (hf : f ∈ files) (i : NodeId) : f.tree.term.count i ≤ countFiles i files := by
  induction files with
  | nil => cases hf
  | cons g gs ih =>
    rw [countFiles]
    cases hf with
    | head => exact Nat.le_add_right _ _
    | tail _ hf => exact Nat.le_trans (ih hf) (Nat.le_add_left _ _)

/-- The nodes of a package that is read lie in what is parsed of their inputs, and
their identities are below its counter. -/
theorem assemble_sited (h : Package.assemble inputs = .ok p) :
    Sited inputs (fun input info => info.Below input.size ∧ info.id < p.nextId) 0 p.files := by
  have read : Sited inputs (fun input => Info.Below input.size) 0 p.files := readSources_sited [] (assemble_files h)
  refine read.mono fun f hf input below => below.combine (fun _ hb hid => ⟨hb, hid⟩) ?_
  refine Term.everywhere_of_count (Q := fun info => info.id < p.nextId) fun info pos => ?_
  have distinct := assemble_distinct h info.id
  have count := count_le_countFiles hf info.id
  by_contra above
  rw [spare, if_pos (Nat.le_of_not_lt above)] at distinct
  omega

theorem SourceFile.Of.isMarked (of : f.Of input) (marked : f.lowered.isSome = true) :
    input.lowered?.isSome = true ∧ input.marked = true := by
  refine ⟨of.lowered? ▸ marked, ?_⟩
  have lowered := of.lowered
  unfold lowerInput at lowered
  split at lowered
  · assumption
  · rw [← Except.ok.inj lowered] at marked
    cases marked

/-- Some marked input is what the failure points into. -/
def Failure.PointsIntoMarked (inputs : List SourceInput) (e : Failure) : Prop :=
  ∃ (i : Nat) (input : SourceInput), inputs[i]? = some input ∧ input.marked = true ∧ e.PointsInto input

/-- Collection of one file keeps to its nodes, and reports markers of its text. -/
theorem collectFile_inside {file : Nat} {l : Lowered} (here : inputs[file]? = some input) (hl : input.lowered? = some l)
    (nodes : tree.term.Everywhere fun info => info.Below input.size ∧ info.id < n)
    (checks : ChecksWithin inputs n out.checks) :
    (∃ fault, collectFile l.markers file tree out = .error fault ∧ fault.span.Parsed input) ∨
    ∃ tree' out', collectFile l.markers file tree out = .ok (tree', out') ∧
      (tree'.term.Everywhere fun info => info.Below input.size ∧ info.id < n) ∧
      ChecksWithin inputs n out'.checks := by
  have marked : input.lowered?.isSome = true := by rw [hl]; rfl
  obtain ⟨nodes', holds⟩ := (collector_respects here marked l.markers).file nodes (s := { out }) checks
  unfold collectFile
  rcases hwalk : walkFile (collector l.markers file) tree ⟨{ out }, none⟩ with ⟨tree', s', failure⟩
  rw [hwalk] at nodes' holds
  cases failure with
  | some fault => exact .inl ⟨fault, rfl, holds⟩
  | none =>
    dsimp only
    split
    · rename_i k offset hunclaimed
      refine .inl ⟨_, rfl, ?_⟩
      obtain ⟨at_, -⟩ := unclaimed?_eq_some hunclaimed
      obtain ⟨before, after, htext, hbefore⟩ := lower_marks (lower_of_lowered? hl) at_
      have inside : offset ≤ input.size := by
        rw [SourceInput.size, hl]
        show offset ≤ byteLength l.text.toList
        rw [htext, byteLength_append, hbefore]
        exact Nat.le_add_right _ _
      exact ⟨inside, inside, fun _ => .refl⟩
    · exact .inr ⟨_, _, rfl, nodes', holds⟩

theorem collectFiles_inside (sited : Sited inputs (fun input info => info.Below input.size ∧ info.id < n) i files)
    (checks : ChecksWithin inputs n out.checks) :
    (∃ e, collectFiles i out files = .error e ∧ e.PointsIntoMarked inputs) ∨
    ∃ files' out', collectFiles i out files = .ok (files', out') ∧
      Sited inputs (fun input info => info.Below input.size ∧ info.id < n) i files' ∧
      ChecksWithin inputs n out'.checks := by
  induction files generalizing i out with
  | nil => exact .inr ⟨[], out, rfl, sited, checks⟩
  | cons f fs ih =>
    obtain ⟨⟨input, here, of, nodes⟩, rest⟩ := sited
    rw [collectFiles]
    cases hl : f.lowered with
    | none =>
      rcases ih rest checks with ⟨e, herror, points⟩ | ⟨files', out', hok, sited', checks'⟩
      · exact .inl ⟨e, by simp only [herror]; rfl, points⟩
      · exact .inr ⟨f :: files', out', by simp only [hok]; rfl, ⟨⟨input, here, of, nodes⟩, sited'⟩, checks'⟩
    | some l =>
      have hlowered := of.lowered?.trans hl
      rcases collectFile_inside here hlowered nodes checks with ⟨fault, herror, parsed⟩ |
        ⟨tree', out1, hok, nodes', checks1⟩
      · refine .inl ⟨_, by simp only [herror]; rfl, i, input, here, (of.isMarked (by rw [hl]; rfl)).2, ?_⟩
        rw [of.site_eq]
        exact parsed.pointsInto .collect
      · rcases ih rest checks1 with ⟨e, herror, points⟩ | ⟨files', out', hrest, sited', checks'⟩
        · exact .inl ⟨e, by simp only [hok, herror]; rfl, points⟩
        · have of' : (⟨f.path, f.text, some l, tree'⟩ : SourceFile).Of input :=
            ⟨of.path, of.text, of.lowered.trans (by rw [hl])⟩
          exact .inr ⟨_ :: files', out', by simp only [hok, hrest]; rfl, ⟨⟨input, here, of', nodes'⟩, sited'⟩, checks'⟩

/-! ## Rounds -/

/-- What is known of a package and its checks between two rounds. -/
structure Rounded (inputs : List SourceInput) (n : NodeId) (files : List SourceFile) (collected : Collected)
    (nextId : NodeId) : Prop where
  files : Sited inputs (fun input => Info.NewOr n input.size) 0 files
  checks : ChecksWithin inputs n collected.checks
  counter : n ≤ nextId

theorem expandFile_inside {state : ExpandState} (marked : input.lowered?.isSome = true)
    (info : TypeInfo) (file : Nat) (nodes : tree.term.Everywhere (Info.NewOr n input.size))
    (counter : n ≤ state.nextId) (checks : ChecksWithin inputs n state.collected.checks) :
    (∃ fault, (expandFile info file tree state).fault = some fault ∧ fault.span.Parsed input) ∨
    (expandFile info file tree state).fault = none ∧
      (expandFile info file tree state).tree.term.Everywhere (Info.NewOr n input.size) ∧
      n ≤ (expandFile info file tree state).state.nextId ∧
      ChecksWithin inputs n (expandFile info file tree state).state.collected.checks := by
  have kept : Expanding.Kept inputs n input.size { shared := state } := ⟨counter, checks, nofun⟩
  obtain ⟨nodes', holds⟩ := (expander_respects marked info file).file nodes kept
  unfold expandFile
  rcases hwalk : walkFile (expander info file) tree ⟨{ shared := state }, none⟩ with ⟨tree', s', failure⟩
  rw [hwalk] at nodes' holds
  cases failure with
  | some fault => exact .inl ⟨fault, rfl, holds⟩
  | none => exact .inr ⟨rfl, nodes', holds.counter, holds.checks⟩

/-- A round fails inside a marked input, or keeps what is known. -/
theorem expandFiles_inside (info : TypeInfo) (state : ExpandState)
    (sited : Sited inputs (fun input => Info.NewOr n input.size) i files)
    (counter : n ≤ state.nextId) (checks : ChecksWithin inputs n state.collected.checks) :
    (∃ e, (expandFiles info i state files).failure = some e ∧ e.PointsIntoMarked inputs) ∨
    (expandFiles info i state files).failure = none ∧
      Sited inputs (fun input => Info.NewOr n input.size) i (expandFiles info i state files).files ∧
      n ≤ (expandFiles info i state files).state.nextId ∧
      ChecksWithin inputs n (expandFiles info i state files).state.collected.checks := by
  induction files generalizing i state with
  | nil => exact .inr ⟨rfl, sited, counter, checks⟩
  | cons f fs ih =>
    obtain ⟨⟨input, here, of, nodes⟩, rest⟩ := sited
    cases hmarked : f.isMarked with
    | false =>
      rw [expandFiles_plain hmarked]
      rcases ih state rest counter checks with failed | ⟨going, sited', counter', checks'⟩
      · exact .inl failed
      · exact .inr ⟨going, ⟨⟨input, here, of, nodes⟩, sited'⟩, counter', checks'⟩
    | true =>
      obtain ⟨lowered, marked⟩ := of.isMarked hmarked
      rcases expandFile_inside lowered info i nodes counter checks with ⟨fault, failed, parsed⟩ |
        ⟨going, nodes', counter', checks'⟩
      · rw [expandFiles_failed hmarked failed]
        refine .inl ⟨_, rfl, i, input, here, marked, ?_⟩
        have of' : ({ f with tree := (expandFile info i f.tree state).tree } : SourceFile).Of input :=
          ⟨of.path, of.text, of.lowered⟩
        rw [of'.site_eq]
        exact parsed.pointsInto .expand
      · rw [expandFiles_marked hmarked going]
        rcases ih _ rest counter' checks' with failed | ⟨going, sited', counter'', checks''⟩
        · exact .inl failed
        · have of' : ({ f with tree := (expandFile info i f.tree state).tree } : SourceFile).Of input :=
            ⟨of.path, of.text, of.lowered⟩
          exact .inr ⟨going, ⟨⟨input, here, of', nodes'⟩, sited'⟩, counter'', checks''⟩

/-- A run that cannot go on points at its first pending check. -/
theorem stagnation_inside (info : TypeInfo) (sited : Sited inputs P 0 p.files)
    (checks : ChecksWithin inputs n collected.checks) (left : 0 < collected.pending) :
    (stagnation p collected info).PointsIntoMarked inputs := by
  have pending : collected.checks.toList ≠ [] := by
    intro none
    rw [Collected.pending, ← TreeMap.length_toList, none] at left
    cases left
  obtain ⟨⟨id, b⟩, rest, hlist⟩ := exists_cons_of_ne_nil pending
  have bound : collected.checks.get? id = some b := by
    refine TreeMap.mem_toList_iff_getElem?_eq_some.mp ?_
    rw [hlist]
    exact mem_cons_self
  obtain ⟨-, input, here, marked, parsed⟩ := checks id b bound
  rw [← Nat.zero_add b.file] at here
  obtain ⟨f, hf, of⟩ := sited.file here
  have points : ((input.site .expand).locate ⟨.undefinedType collected.pending, b.span, false⟩).PointsInto input :=
    Span.Parsed.pointsInto parsed .expand
  rw [← of.site_eq] at points
  refine ⟨_, input, here, (of.isMarked (of.lowered? ▸ marked)).2, ?_⟩
  unfold stagnation
  simp only [hlist, map_cons, findSome?_cons, hf, Option.map_some]
  exact ⟨points.source, points.span, points.translated⟩

/-! ## Runs -/

/-- One round more. -/
theorem Rounded.round {it : Iteration} (h : Rounded inputs n it.package.files it.collected it.package.nextId) :
    (∃ e, it.round.failure = some e ∧ e.PointsIntoMarked inputs) ∨
    it.round.failure = none ∧ Rounded inputs n it.result.files it.round.state.collected it.result.nextId := by
  rcases expandFiles_inside it.info ⟨it.collected, it.spliced, it.package.nextId⟩ h.files h.counter
    h.checks with failed | ⟨going, sited, counter, checks⟩
  · exact .inl failed
  · exact .inr ⟨going, sited, checks, counter⟩

theorem iterations_rounded {k : Nat} (start : Rounded inputs n p.files collected p.nextId)
    (going : ∀ j < k, (iterations typing collected p j).round.failure = none) :
    Rounded inputs n (iterations typing collected p k).package.files
      (iterations typing collected p k).collected (iterations typing collected p k).package.nextId := by
  induction k with
  | zero => exact start
  | succ k ih =>
    rcases (ih fun j hj => going j (Nat.lt_succ_of_lt hj)).round with ⟨e, failed, -⟩ | ⟨-, rounded⟩
    · rw [going k (Nat.lt_succ_self k)] at failed
      cases failed
    · exact rounded

theorem checksWithin_empty (inputs : List SourceInput) (n : NodeId) :
    ChecksWithin inputs n ({} : Collected).checks := by
  intro id b hb
  rw [TreeMap.get?_eq_getElem?, TreeMap.getElem?_emptyc] at hb
  cases hb

/-- A package that is read expands, or fails inside a marked input. -/
theorem expand_inside (h : Package.assemble inputs = .ok p)
    (failed : (p.expand typing).outcome = .error e) : e.PointsIntoMarked inputs := by
  rcases collectFiles_inside (assemble_sited h) (checksWithin_empty inputs p.nextId) with
    ⟨e', herror, points⟩ | ⟨files, out, hok, sited, checks⟩
  · have collect : p.collect = .error e' := by
      rw [Package.collect, herror]
      rfl
    rw [Package.expand, collect] at failed
    cases failed
    exact points
  · have collect : p.collect = .ok ({ p with files }, out) := by
      rw [Package.collect, hok]
      rfl
    have start : Rounded inputs p.nextId files out p.nextId :=
      ⟨sited.mono fun f _ input nodes => nodes.combine (fun _ below _ => .inr below.1) nodes, checks, .refl⟩
    obtain ⟨m, ends⟩ := exists_ends_expand collect typing
    -- Every round before the last one has succeeded, so the last one starts as it should.
    have rounded : ∀ j, j + 1 = m → _ := fun j hj =>
      (iterations_rounded (k := j) start fun i hi =>
        ((ends.falls i (Nat.zero_le i) (by omega)).2 (by omega)).1).round
    rcases ends.outcome with ⟨-, -, outcome⟩ | ⟨j, f, -, hj, failure, outcome⟩ |
      ⟨j, -, hj, going, still, left, outcome⟩
    · rw [outcome] at failed
      cases failed
    · rw [outcome] at failed
      cases failed
      rcases rounded j hj with ⟨e', failed, points⟩ | ⟨going, -⟩
      · obtain rfl : e' = e := Option.some.inj (failed.symm.trans failure)
        exact points
      · rw [failure] at going
        cases going
    · rw [outcome] at failed
      cases failed
      rcases rounded j hj with ⟨e', failed, -⟩ | ⟨-, after⟩
      · rw [going] at failed
        cases failed
      · subst hj
        exact stagnation_inside _ after.files after.checks (Nat.lt_of_lt_of_eq left still.symm)

/-- A package is read where its files are, and there is one. -/
theorem assemble_of_readSources (some : inputs ≠ [])
    (h : readSources none 0 inputs = .ok (files, next)) : ∃ p, Package.assemble inputs = .ok p := by
  obtain ⟨input, rest, rfl⟩ := exists_cons_of_ne_nil some
  obtain ⟨file, next1, expected, files', -, -, rfl⟩ := readSources_cons h
  rw [Package.assemble, h]
  exact ⟨_, rfl⟩

theorem assemble_error (h : readSources none 0 inputs = .error e) : Package.assemble inputs = .error e := by
  rw [Package.assemble, h]
  rfl

/-- **Diagnostics point into their file.** Reading inputs fails for want of inputs, or at the first input
that cannot be read after those before it; and a run over what was read, whatever the types are, fails
inside a marked input. In each case the span lies in the text of that input as it was written, from
start to end, and is what a span of the parsed text stands for. -/
theorem failure_pointsInto (inputs : List SourceInput) : (∀ e, Package.assemble inputs = .error e →
      (inputs = [] ∧ e = unplaced fallbackSource .discover (.noSources "")) ∨
      ∃ before input after, inputs = before ++ input :: after ∧ (before = [] ∨ ∃ q, Package.assemble before = .ok q) ∧
        Package.assemble (before ++ [input]) = .error e ∧ e.PointsInto input) ∧
    ∀ p, Package.assemble inputs = .ok p → ∀ typing e, (p.expand typing).outcome = .error e →
      ∃ (i : Nat) (input : SourceInput), inputs[i]? = some input ∧ input.marked = true ∧ e.PointsInto input := by
  refine ⟨fun e h => ?_, fun p h typing e => expand_inside h⟩
  cases hread : readSources none 0 inputs with
  | ok r =>
    obtain ⟨files, next⟩ := r
    by_cases hinputs : inputs = []
    · subst hinputs
      cases h
      exact .inl ⟨rfl, rfl⟩
    · obtain ⟨p, hp⟩ := assemble_of_readSources hinputs hread
      rw [hp] at h
      cases h
  | error e' =>
    obtain rfl : e' = e := Except.error.inj ((assemble_error hread).symm.trans h)
    obtain ⟨before, input, after, rfl, ⟨⟨files, next⟩, hbefore⟩, hfails, points⟩ := readSources_error hread
    refine .inr ⟨before, input, after, rfl, ?_, assemble_error hfails, points⟩
    by_cases hnone : before = []
    · exact .inl hnone
    · exact .inr (assemble_of_readSources hnone hbefore)

/-- The span of the failure of reading these inputs. -/
def unreadSpan (inputs : List SourceInput) : Option Span :=
  match Package.assemble inputs with
  | .error e => some e.span
  | .ok _ => none

/-- The span of the failure of a run over these inputs in which nothing is known
of the types. -/
def unresolvedSpan (inputs : List SourceInput) : Option Span :=
  match Package.assemble inputs with
  | .error _ => none
  | .ok p =>
    match (p.expand fun _ _ => {}).outcome with
    | .error e => some e.span
    | .ok _ => none

/-- The wrapped call of the check is longer than the check. -/
def nestedCheck : SourceInput := ⟨"a.go2", "package m;func f()\x7bg(check h(),1)\x7d", true⟩

/-- A rune with two bytes is left open. -/
def openRune : SourceInput := ⟨"b.go2", "package m;var x='é", true⟩

theorem failure_pointsInto_nestedCheck : (∃ e, Package.assemble [nestedCheck, openRune] = .error e ∧ e.span = ⟨16, 19⟩ ∧
      ∃ before input after, [nestedCheck, openRune] = before ++ input :: after ∧
        (before = [] ∨ ∃ q, Package.assemble before = .ok q) ∧
        Package.assemble (before ++ [input]) = .error e ∧ e.PointsInto input) ∧
    ∃ p e, Package.assemble [nestedCheck] = .ok p ∧ (p.expand fun _ _ => {}).outcome = .error e ∧
      e.span = ⟨21, 30⟩ ∧ ∃ (i : Nat) (input : SourceInput), [nestedCheck][i]? = some input ∧
        input.marked = true ∧ e.PointsInto input := by
  have unread : unreadSpan [nestedCheck, openRune] = some ⟨16, 19⟩ := by decide +kernel
  have unresolved : unresolvedSpan [nestedCheck] = some ⟨21, 30⟩ := by decide +kernel
  constructor
  · unfold unreadSpan at unread
    split at unread
    · rename_i e he
      rcases (failure_pointsInto _).1 e he with ⟨none, -⟩ | points
      · cases none
      · exact ⟨e, he, Option.some.inj unread, points⟩
    · cases unread
  · unfold unresolvedSpan at unresolved
    split at unresolved
    · cases unresolved
    · rename_i p hp
      split at unresolved
      · rename_i e he
        exact ⟨p, e, hp, he, Option.some.inj unresolved, (failure_pointsInto _).2 p hp _ e he⟩
      · cases unresolved

end Packages

end CheckHandle
