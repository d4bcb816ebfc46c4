import CheckHandle.Proofs.Assembly
import CheckHandle.Proofs.Collecting
import CheckHandle.Proofs.Course

/-!
# Where checks are accepted

Collection refuses a check in a region whose expressions may run never or more
than once. So a check that is bound stands in its statement where the course of
the statement is in no doubt, but for two kinds of places that are no region of
their own: the right operand of `&&` and `||`, and the targets of a range clause.
-/

namespace CheckHandle

open Std List

attribute [local simp] Course.accepted Course.nodes Doubt.isRefused elseCourse strayCourse valuesCourse

/-! ## Nodes stand once in a course -/

section Count

variable (i : NodeId)

mutual

theorem Expr.count_course_le (x : Expr) : x.course.nodes.count i ≤ x.count i := by
  cases x
  case' composite xs => have := count_coursesOf_le xs
  case' paren x | selector x _ | typeAssert x _ | unary _ x => have := x.count_course_le
  case' index x y | keyValue x y | binary _ x y => have := And.intro x.count_course_le y.count_course_le
  case' slice x lo hi max =>
    have := And.intro x.count_course_le (count_course?_le lo)
    have := And.intro (count_course?_le hi) (count_course?_le max)
  case' call fn args _ => have := And.intro fn.count_course_le (count_coursesOf_le args)
  all_goals
    simp only [Expr.course, Course.nodes, Expr.count, Info.count, count_append, count_singleton,
      beq_iff_eq, apply_ite Course.nodes, ite_self]
    omega
termination_by structural x

theorem count_course?_le : ∀ x : Option Expr, (course? x).nodes.count i ≤ countExpr? i x
  | none => by simp [course?]
  | some x => by
    simp only [course?, countExpr?]
    exact x.count_course_le

theorem count_coursesOf_le : ∀ xs : List Expr, (coursesOf xs).nodes.count i ≤ countExprs i xs
  | [] => by simp [coursesOf]
  | x :: xs => by
    have := x.count_course_le
    have := count_coursesOf_le xs
    simp only [coursesOf, Course.nodes, countExprs, count_append]
    omega

end

theorem count_valuesCourse_le (rest : Course) : ∀ (first : Bool) (xs : List Expr),
    (valuesCourse first xs rest).nodes.count i ≤ countExprs i xs + rest.nodes.count i
  | first, [] => by simp
  | first, x :: xs => by
    have := x.count_course_le i
    have := count_valuesCourse_le rest false xs
    cases first <;> simp only [valuesCourse, if_true, Bool.false_eq_true, if_false, Course.nodes,
      countExprs, count_append] <;> omega

theorem count_clausesCourse_le : ∀ (first : Bool) (cs : List CaseClause),
    (clausesCourse first cs).nodes.count i ≤ countClauses i cs
  | first, [] => by simp [clausesCourse]
  | first, .case _ values _ :: cs => by
    have := count_clausesCourse_le (first && values.isEmpty) cs
    have := count_valuesCourse_le i (clausesCourse (first && values.isEmpty) cs) first values
    simp only [clausesCourse, countClauses]
    omega
  | first, .default _ _ :: cs => by
    have := count_clausesCourse_le first cs
    simp only [clausesCourse, countClauses]
    omega

theorem count_specsCourse_le (specs : List ValueSpec) : (specsCourse specs).nodes.count i ≤ countValueSpecs i specs := by
  induction specs with
  | nil => simp [specsCourse]
  | cons spec specs ih =>
    obtain ⟨_, _, _, values⟩ := spec
    have := count_coursesOf_le i values
    simp only [specsCourse, Course.nodes, countValueSpecs, count_append]
    omega

theorem Decl.count_course_le (d : Decl) : d.course.nodes.count i ≤ d.count i := by
  cases d with
  | types => simp [Decl.course]
  | vars specs | consts specs => exact count_specsCourse_le i specs

mutual

theorem Stmt.count_course_le (t : Stmt) : t.course.nodes.count i ≤ t.count i := by
  cases t
  case' expr x | incDec x _ | go x | defer x => have := x.count_course_le i
  case' assign lhs _ rhs => have := And.intro (count_coursesOf_le i lhs) (count_coursesOf_le i rhs)
  case' decl d => have := d.count_course_le i
  case' ret results => have := count_coursesOf_le i results
  case' cond init test _ other =>
    have := And.intro (count_stmtCourse?_le init) (count_elseCourse_le other)
    have := test.count_course_le i
  case' loop init test post _ =>
    have := And.intro (count_stmtCourse?_le init) (count_stmtCourse?_le post)
    have := count_course?_le i test
  case' range key value _ x _ =>
    have := And.intro (count_course?_le i key) (count_course?_le i value)
    have := x.count_course_le i
  case' switch init tag clauses =>
    have := And.intro (count_stmtCourse?_le init) (count_course?_le i tag)
    have := count_clausesCourse_le i true clauses
  all_goals
    simp only [Stmt.course, Course.nodes, Stmt.count, count_append, count_nil]
    omega
termination_by structural t

theorem count_stmtCourse?_le : ∀ t : Option Stmt, (stmtCourse? t).nodes.count i ≤ countStmt? i t
  | none => by simp [stmtCourse?]
  | some t => by
    simp only [stmtCourse?, countStmt?]
    exact t.count_course_le

theorem count_elseCourse_le : ∀ t : Option Stmt,
    (elseCourse t).nodes.count i + (strayCourse t).nodes.count i ≤ countStmt? i t
  | none => by simp
  | some t => by
    have whole := t.count_course_le
    cases t with
    | cond _ init test _ other =>
      have := count_stmtCourse?_le init
      have := test.count_course_le i
      have := count_elseCourse_le other
      simp only [elseCourse, strayCourse, Course.nodes, countStmt?, Stmt.count, count_append]
      omega
    | _ => simpa [countStmt?] using whole

end

end Count

/-! ## What a walk binds -/

/-- What is left of these nodes where checks may be refused. -/
def Region.only (region : Region) (nodes : List NodeId) : List NodeId :=
  if region.refusal?.isNone then nodes else []

theorem Region.only_append (region : Region) (nodes nodes' : List NodeId) :
    region.only (nodes ++ nodes') = region.only nodes ++ region.only nodes' := by
  unfold Region.only
  split <;> rfl

@[simp] theorem Region.only_body (nodes : List NodeId) : Region.only .body nodes = nodes := rfl

@[simp] theorem Region.only_loopHeader (nodes : List NodeId) : Region.only .loopHeader nodes = [] := rfl

@[simp] theorem Region.only_elseIfHeader (nodes : List NodeId) : Region.only .elseIfHeader nodes = [] := rfl

@[simp] theorem Region.only_laterCase (nodes : List NodeId) : Region.only .laterCase nodes = [] := rfl

@[simp] theorem Region.only_deferred (nodes : List NodeId) : Region.only .deferred nodes = [] := rfl

theorem Region.only_subset (region : Region) {nodes nodes' : List NodeId} (h : nodes ⊆ nodes') :
    region.only nodes ⊆ region.only nodes' := by
  unfold Region.only
  split
  · exact h
  · exact List.Subset.refl _

@[simp] theorem Region.only_nil (region : Region) : region.only [] = [] := by
  unfold Region.only
  split <;> rfl

/-! ## Case values -/

theorem accepted_valuesCourse_false {rest : Course} (h : rest.accepted = []) (xs : List Expr) :
    (valuesCourse false xs rest).accepted = [] := by
  cases xs with
  | nil => exact h
  | cons x xs => rfl

theorem accepted_clausesCourse_false (cs : List CaseClause) : (clausesCourse false cs).accepted = [] := by
  induction cs with
  | nil => rfl
  | cons c cs ih =>
    cases c with
    | case _ values _ => exact accepted_valuesCourse_false ih values
    | default => exact ih

/-- Of the case values, only the first of all is accepted. -/
theorem accepted_case (first : Bool) (values : List Expr) (cs : List CaseClause) :
    (valuesCourse first values .done).accepted ++ (clausesCourse (first && values.isEmpty) cs).accepted
      ⊆ (valuesCourse first values (clausesCourse (first && values.isEmpty) cs)).accepted := by
  cases values with
  | nil => simp
  | cons x xs =>
    have rest := accepted_clausesCourse_false cs
    have later : (valuesCourse false xs .done).accepted = [] := accepted_valuesCourse_false rfl xs
    cases first <;> simp [rest, later]

theorem accepted_elseCourse (t : Option Stmt) : (elseCourse t).accepted = [] := by
  rcases t with _ | t
  · simp
  · cases t <;> simp

/-- What a statement does in its place. -/
def Stmt.courseAt (place : Place) (t : Stmt) : Course :=
  match place with
  | .other => strayCourse (some t)
  | _ => t.course

/-- A part of a walk binds checks to the statement at hand, at these nodes, or to
these statements inside it, where they are accepted. -/
structure Binds {α : Type} (nodes : List NodeId) (inside : List Statement) (m : WalkM Collecting Fault α) : Prop where
  stmts : ∀ {s a s'}, Succeeds m s a s' → s'.stmts = s.stmts
  checks : ∀ {s a s' i b}, Succeeds m s a s' → s'.out.checks.get? i = some b →
    s.out.checks.get? i = some b ∨ (s.stmts.head? = some b.stmt ∧ i ∈ nodes) ∨
      ∃ t : Stmt, t.statement ∈ inside ∧ t.info.id = b.stmt ∧ i ∈ t.course.accepted

namespace Binds

variable {α β : Type} {nodes nodes' : List NodeId} {inside inside' : List Statement}
  {m : WalkM Collecting Fault α}

theorem mono (h : Binds nodes inside m) (hnodes : nodes ⊆ nodes') (hinside : inside ⊆ inside') :
    Binds nodes' inside' m where
  stmts := h.stmts
  checks hm hb := by
    rcases h.checks hm hb with hb | ⟨hstmt, hi⟩ | ⟨t, ht, hi⟩
    · exact .inl hb
    · exact .inr (.inl ⟨hstmt, hnodes hi⟩)
    · exact .inr (.inr ⟨t, hinside ht, hi⟩)

theorem pure (a : α) : Binds nodes inside (pure a : WalkM Collecting Fault α) where
  stmts h := by
    rw [succeeds_pure] at h
    rw [h.2]
  checks h hb := by
    rw [succeeds_pure] at h
    rw [h.2] at hb
    exact .inl hb

/-- The last part of a walk puts together what the others gave. -/
theorem done (a : α) : Binds [] [] (Pure.pure a : WalkM Collecting Fault α) := .pure a

/-- The second part may depend on what the first always gives. -/
theorem bindWith {f : α → WalkM Collecting Fault β} [∀ a, Persists (f a)] {R : α → Prop}
    (hm : Binds nodes inside m) (hR : ∀ {s a s'}, Succeeds m s a s' → R a)
    (hf : ∀ a, R a → Binds nodes' inside' (f a)) :
    Binds (nodes ++ nodes') (inside ++ inside') (m >>= f) where
  stmts h := by
    obtain ⟨a, s1, h1, h2⟩ := succeeds_bind.mp h
    rw [(hf a (hR h1)).stmts h2, hm.stmts h1]
  checks h hb := by
    obtain ⟨a, s1, h1, h2⟩ := succeeds_bind.mp h
    have hm' := hm.mono (subset_append_left nodes nodes') (subset_append_left inside inside')
    have hf' := (hf a (hR h1)).mono (subset_append_right nodes nodes') (subset_append_right inside inside')
    rcases hf'.checks h2 hb with hb | hb
    · exact hm'.checks h1 hb
    · rw [hm.stmts h1] at hb
      exact .inr hb

theorem bind {f : α → WalkM Collecting Fault β} [∀ a, Persists (f a)] (hm : Binds nodes inside m)
    (hf : ∀ a, Binds nodes' inside' (f a)) : Binds (nodes ++ nodes') (inside ++ inside') (m >>= f) :=
  hm.bindWith (fun _ => trivial) fun a _ => hf a

theorem seq {f : α → WalkM Collecting Fault β} [∀ a, Persists (f a)] {all : List NodeId}
    {allInside : List Statement} (hm : Binds nodes inside m) (hf : ∀ a, Binds nodes' inside' (f a))
    (hnodes : nodes ++ nodes' ⊆ all) (hinside : inside ++ inside' ⊆ allInside) :
    Binds all allInside (m >>= f) :=
  (hm.bind hf).mono hnodes hinside

/-- A question that binds nothing. -/
theorem ask {idle : α} {step : VisitM Collecting Fault α}
    (h : ∀ {s a s'}, step s = (.ok a, s') → s'.stmts = s.stmts ∧ s'.out.checks = s.out.checks) :
    Binds [] [] (ask idle step) where
  stmts hm := (h (succeeds_ask.mp hm)).1
  checks hm hb := by
    rw [(h (succeeds_ask.mp hm)).2] at hb
    exact .inl hb

end Binds

section Walk

variable (markers : Markers) (file : Nat)

theorem binds_enterFunc (sig : Signature) : Binds [] [] (ask () ((collector markers file).enterFunc sig)) :=
  .ask fun h => by
    cases h
    exact ⟨rfl, rfl⟩

theorem binds_exitFunc : Binds [] [] (ask () (collector markers file).exitFunc) := .ask fun h => by
    cases h
    exact ⟨rfl, rfl⟩

theorem binds_enterBlock (b : Block) : Binds [] [] (ask () ((collector markers file).enterBlock b)) := .ask fun h => by
    cases h
    exact ⟨rfl, rfl⟩

theorem binds_exitBlock (b : Block) : Binds [] [] (ask () ((collector markers file).exitBlock b)) :=
  .ask fun {s a s'} h => by
    obtain rfl : s' = s.popBlock := by
      cases h
      rfl
    unfold Collecting.popBlock
    split <;> exact ⟨rfl, rfl⟩

theorem binds_leave (region : Region) (slot : Slot) {x : Expr} (info : Info) (hinfo : x.info = info) :
    Binds (region.only [info.id]) [] ((collector markers file).leave region slot x) where
  stmts h := by
    obtain ⟨action, hexit, -⟩ := succeeds_leave h
    obtain ⟨-, ownership, rfl | ⟨_, _, _, _, _, _, _, _, _, _, _, _, _, rfl⟩⟩ := exitExpr_collector hexit
    · rfl
    · rfl
  checks {s V s' i b} h hb := by
    obtain ⟨action, hexit, -⟩ := succeeds_leave h
    obtain ⟨-, ownership, rfl | ⟨operand, func, funcs, stmt, stmts, block, -, -, -, hregion, -, hstmts, -,
      rfl⟩⟩ := exitExpr_collector hexit
    · exact .inl hb
    rw [TreeMap.get?_eq_getElem?, TreeMap.getElem?_insert] at hb
    split at hb
    · rename_i hi
      obtain rfl : x.info.id = i := by simpa using hi
      cases hb
      refine .inr (.inl ⟨by rw [hstmts]; rfl, ?_⟩)
      have admitted : region.refusal? = none := hregion
      simp [Region.only, admitted, hinfo]
    · exact .inl hb

/-- A statement of a block, and those after it. -/
theorem binds_cons {t : Stmt} {ts : List Stmt} (here : Binds t.course.accepted (standing t.parts)
      (walkStmt (collector markers file) .body .owned t))
    (rest : Binds [] (standingIn (statements ts)) (walkStmts (collector markers file) ts)) :
    Binds [] (standingIn (statements (t :: ts))) (walkStmts (collector markers file) (t :: ts)) := by
  have subset := standingIn_append_subset [t.statement] (statements ts)
  have self : t.statement ∈ standingIn (statements (t :: ts)) := mem_append_left _ mem_cons_self
  have parts : standing t.parts ⊆ standingIn (statements (t :: ts)) := fun u hu =>
    subset.1 (mem_append_right _ (by
      simpa [standing, Stmt.statement, blocksIn] using hu))
  have rest' := rest.mono (List.Subset.refl []) subset.2
  have step : ∀ {s out s'}, Succeeds (walkStmts (collector markers file) (t :: ts)) s out s' →
      s'.stmts = s.stmts ∧ ∀ {i b}, s'.out.checks.get? i = some b → s.out.checks.get? i = some b ∨
        (s.stmts.head? = some b.stmt ∧ i ∈ []) ∨ ∃ u : Stmt,
          u.statement ∈ standingIn (statements (t :: ts)) ∧ u.info.id = b.stmt ∧ i ∈ u.course.accepted := by
    intro s out s' h
    rcases succeeds_stmts h with ⟨s1, henter, hrest⟩ | ⟨s1, _, henter, -, -⟩ |
      ⟨s1, t', s2, action, s3, _, henter, ht, hexit, hrest, -⟩
    · rcases enterStmt_collector henter with ⟨h, -⟩ | ⟨-, _, _, _, _, _, _, -, -, -, -, -, rfl⟩
      · cases h
      · have hstmts := rest.stmts hrest
        refine ⟨hstmts, fun hb => ?_⟩
        have := rest'.checks hrest hb
        exact this
    · rcases enterStmt_collector henter with ⟨h, -⟩ | ⟨h, -⟩ <;> cases h
    · rcases enterStmt_collector henter with ⟨-, ownership, rfl⟩ | ⟨h, -⟩
      rotate_left
      · cases h
      cases hexit
      have hstmts : s2.stmts.tail = s.stmts := by
        rw [here.stmts ht]
        rfl
      refine ⟨by rw [rest.stmts hrest]; exact hstmts, fun {i b} hb => ?_⟩
      rcases rest'.checks hrest hb with hb | ⟨-, hi⟩ | hb
      · -- bound while the statement was at hand
        rcases here.checks ht hb with hb | ⟨hstmt, hi⟩ | ⟨u, hu, hi⟩
        · exact .inl hb
        · exact .inr (.inr ⟨t, self, Option.some.inj hstmt, hi⟩)
        · exact .inr (.inr ⟨u, parts hu, hi⟩)
      · cases hi
      · exact .inr (.inr hb)
  exact ⟨fun h => (step h).1, fun h hb => (step h).2 hb⟩

attribute [local simp] Course.accepted Decl.course Decl.term Region.only_append Term.blocks blocksAll
  clauseTerms course? coursesOf exprTerm? exprTerms specsCourse standing stmtTerm? valueSpecTerms

mutual

theorem binds_expr (region : Region) (slot : Slot) (x : Expr) : Binds (region.only x.course.accepted) (standing x.parts)
      (walkExpr (collector markers file) region slot x) := by
  cases x <;> rw [walkExpr]
  case' ident | lit | type => refine (binds_leave markers file region slot _ rfl).mono ?_ (nil_subset _)
  case' composite => refine .seq (binds_each region _) (fun _ => binds_leave markers file region slot _ rfl) ?_ ?_
  case' funcLit =>
    refine .seq (binds_enterFunc markers file _) (fun _ => .bind (binds_block _) fun _ =>
      .bind (binds_exitFunc markers file) fun _ => binds_leave markers file region slot _ rfl) ?_ ?_
  case' paren | unary | selector | typeAssert =>
    refine .seq (binds_expr region .single _) (fun _ => binds_leave markers file region slot _ rfl) ?_ ?_
  case' index | keyValue | binary =>
    refine .seq (binds_expr region .single _) (fun _ =>
      .bind (binds_expr region .single _) fun _ => binds_leave markers file region slot _ rfl) ?_ ?_
  case' slice =>
    refine .seq (binds_expr region .single _) (fun _ => .bind (binds_expr? region _) fun _ =>
      .bind (binds_expr? region _) fun _ => .bind (binds_expr? region _) fun _ =>
      binds_leave markers file region slot _ rfl) ?_ ?_
  case' call =>
    refine .seq (binds_expr region .single _) (fun _ => .bind (binds_list region _ _) fun _ =>
      binds_leave markers file region slot _ rfl) ?_ ?_
  -- The operand on the right is accepted also where it may not be reached.
  all_goals simp [Expr.info, Expr.course, apply_ite Course.accepted, Expr.parts]
termination_by structural x

theorem binds_expr? (region : Region) (x : Option Expr) :
    Binds (region.only (course? x).accepted) (standing [exprTerm? x])
      (walkExpr? (collector markers file) region x) := by
  cases x <;> rw [walkExpr?]
  case none => exact .pure _
  refine .seq (binds_expr region .single _) (fun _ => .done _) ?_ ?_
  all_goals simp
termination_by structural x

theorem binds_each (region : Region) (xs : List Expr) :
    Binds (region.only (coursesOf xs).accepted) (standing (exprTerms false xs))
      (walkEach (collector markers file) region xs) := by
  cases xs <;> rw [walkEach]
  case nil => exact .pure _
  refine .seq (binds_expr region .single _) (fun _ => .bind (binds_each region _) fun _ => .done _) ?_ ?_
  all_goals simp
termination_by structural xs

theorem binds_list (region : Region) (slot : Slot) (xs : List Expr) :
    Binds (region.only (coursesOf xs).accepted) (standing (exprTerms true xs))
      (walkList (collector markers file) region slot xs) := by
  cases xs <;> rw [walkList]
  case nil => exact .pure _
  refine .seq (binds_expr region slot _) (fun _ => .bind (binds_list region slot _) fun _ => .done _) ?_ ?_
  all_goals simp
termination_by structural xs

theorem binds_block : ∀ b : Block, Binds [] (standing [b.term]) (walkBlock (collector markers file) b)
  | ⟨info, ss⟩ => by
    rw [walkBlock]
    refine .seq (binds_enterBlock markers file _) (fun _ => .bind (binds_stmts ss) fun _ =>
      .bind (binds_exitBlock markers file _) fun _ => .done _) ?_ ?_
    · simp
    · simp [standingIn, Block.term]
termination_by structural x => x

theorem binds_stmts : ∀ ss : List Stmt, Binds [] (standingIn (statements ss)) (walkStmts (collector markers file) ss)
  | [] => .pure _
  | t :: ts => binds_cons markers file (binds_stmt .body .owned t) (binds_stmts ts)
termination_by structural x => x

theorem binds_stmt (region : Region) (place : Place) (t : Stmt) :
    Binds (region.only (t.courseAt place).accepted) (standing t.parts)
      (walkStmt (collector markers file) region place t) := by
  cases t <;> rw [walkStmt]
  case branch => exact .pure _
  case' expr | incDec | go | defer => refine .seq (binds_expr _ _ _) (fun _ => .done _) ?_ ?_
  case' assign =>
    refine .seq (binds_each region _) (fun _ => .bind (binds_list region _ _) fun _ => .done _) ?_ ?_
  case' decl => refine .seq (binds_decl region _) (fun _ => .done _) ?_ ?_
  case' ret => refine .seq (binds_list region _ _) (fun _ => .done _) ?_ ?_
  case' cond =>
    refine .seq (binds_header? _ _) (fun _ => .bind (binds_expr _ .single _) fun _ =>
      .bind (binds_block _) fun _ => .bind (binds_other? region _) fun _ => .done _) ?_ ?_
  case' loop =>
    refine .seq (binds_header? region _) (fun _ => .bind (binds_expr? _ _) fun _ =>
      .bind (binds_header? _ _) fun _ => .bind (binds_block _) fun _ => .done _) ?_ ?_
  case' range =>
    refine .seq (binds_expr? region _) (fun _ => .bind (binds_expr? region _) fun _ =>
      .bind (binds_expr region .single _) fun _ => .bind (binds_block _) fun _ => .done _) ?_ ?_
  case' switch =>
    refine .seq (binds_header? region _) (fun _ => .bind (binds_expr? region _) fun _ =>
      .bind (binds_clauses region true _) fun _ => .done _) ?_ ?_
  case' block => refine .seq (binds_block _) (fun _ => .done _) ?_ ?_
  all_goals cases place <;> simp [Stmt.courseAt, Stmt.course, Place.headerRegion, accepted_elseCourse, Stmt.parts]
termination_by structural t

theorem binds_header? (region : Region) (t : Option Stmt) :
    Binds (region.only (stmtCourse? t).accepted) (standing [stmtTerm? t])
      (walkHeader? (collector markers file) region t) := by
  cases t <;> rw [walkHeader?]
  case none => exact .pure _
  refine .seq (binds_stmt region .header _) (fun _ => .done _) ?_ ?_
  all_goals simp [stmtCourse?, Stmt.courseAt]
termination_by structural t

theorem binds_other? (region : Region) (t : Option Stmt) :
    Binds (region.only (strayCourse t).accepted) (standing [stmtTerm? t])
      (walkOther? (collector markers file) region t) := by
  cases t <;> rw [walkOther?]
  case none => exact .pure _
  refine .seq (binds_stmt region .other _) (fun _ => .done _) ?_ ?_
  all_goals simp [Stmt.courseAt]
termination_by structural t

theorem binds_clauses (region : Region) (first : Bool) : ∀ cs : List CaseClause,
    Binds (region.only (clausesCourse first cs).accepted) (standing (clauseTerms cs))
      (walkClauses (collector markers file) region first cs)
  | [] => by
    rw [walkClauses]
    exact .pure _
  | .case info values body :: cs => by
    rw [walkClauses]
    have empty : ∀ {s values' s'}, Succeeds (walkValues (collector markers file) region first values) s
        values' s' → values'.isEmpty = values.isEmpty := by
      intro s values' s' h
      cases values with
      | nil =>
        rw [walkValues, succeeds_pure] at h
        rw [h.1]
      | cons x xs =>
        rw [walkValues] at h
        simp only [succeeds_bind, succeeds_pure] at h
        obtain ⟨_, _, _, _, _, _, rfl, -⟩ := h
        rfl
    refine (Binds.bindWith (binds_values region first values) empty fun values' hempty =>
      .bind (binds_block body) fun _ => .bind (?_ : Binds
        (region.only (clausesCourse (first && values.isEmpty) cs).accepted) (standing (clauseTerms cs)) _)
        fun _ => .done _).mono ?_ ?_
    · rw [hempty]
      exact binds_clauses region _ cs
    · simp only [clausesCourse, nil_append, append_nil, ← Region.only_append]
      exact region.only_subset (accepted_case first values cs)
    · simp
  | .default info body :: cs => by
    rw [walkClauses]
    refine .seq (binds_block body) (fun _ => .bind (binds_clauses region first cs) fun _ =>
      .done _) ?_ ?_
    · simp [clausesCourse]
    · simp
termination_by structural x => x

theorem binds_values (region : Region) (first : Bool) : ∀ xs : List Expr,
    Binds (region.only (valuesCourse first xs .done).accepted) (standing (exprTerms false xs))
      (walkValues (collector markers file) region first xs)
  | [] => by
    rw [walkValues]
    exact .pure _
  | x :: xs => by
    rw [walkValues]
    refine .seq (binds_expr _ .single x) (fun _ => .bind (binds_values region false xs) fun _ =>
      .done _) ?_ ?_
    · have rest : (valuesCourse false xs .done).accepted = [] := accepted_valuesCourse_false rfl xs
      cases first <;> simp [rest]
    · simp
termination_by structural x => x

theorem binds_decl (region : Region) (d : Decl) : Binds (region.only d.course.accepted) (standing [d.term])
      (walkDecl (collector markers file) region d) := by
  cases d <;> rw [walkDecl]
  case types => exact .pure _
  all_goals
    refine .seq (binds_specs region _) (fun _ => .done _) ?_ ?_
    all_goals simp
termination_by structural d

theorem binds_specs (region : Region) : ∀ specs : List ValueSpec,
    Binds (region.only (specsCourse specs).accepted) (standing (valueSpecTerms specs))
      (walkSpecs (collector markers file) region specs)
  | [] => .pure _
  | ⟨info, names, ty, values⟩ :: specs => by
    refine .seq (binds_list region _ values) (fun _ => .bind (binds_specs region specs) fun _ => .done _) ?_ ?_
    all_goals simp
termination_by structural x => x

end

theorem binds_func (f : FuncDecl) : Binds [] (standing [f.term]) (walkFunc (collector markers file) f) := by
  unfold walkFunc
  split
  · exact .pure _
  · rename_i body hbody
    refine .seq (binds_enterFunc markers file f.sig) (fun _ => .bind (binds_block markers file body)
      fun _ => .bind (binds_exitFunc markers file) fun _ => .done _) ?_ ?_
    · simp
    · intro t ht
      simp only [standing, FuncDecl.term, blockTerm?, hbody, blocksAll, Term.blocks, flatMap_append,
        mem_append, append_nil, nil_append] at ht ⊢
      exact .inr (.inr (.inr ht))

theorem binds_top (d : TopDecl) : Binds [] (standing [d.term]) (walkTop (collector markers file) d) := by
  cases d with
  | decl d =>
    rw [walkTop]
    refine .seq (binds_decl markers file .packageLevel d) (fun _ => .done _) ?_ ?_
    · exact List.Subset.refl []
    · simp [TopDecl.term]
  | func f =>
    rw [walkTop]
    refine .seq (binds_func markers file f) (fun _ => .done _) ?_ ?_
    · exact List.Subset.refl []
    · simp [TopDecl.term]

theorem binds_tops (ds : List TopDecl) :
    Binds [] (standing (ds.map TopDecl.term)) (ds.mapM (walkTop (collector markers file))) := by
  induction ds with
  | nil =>
    rw [mapM_nil]
    exact .pure _
  | cons d ds ih =>
    rw [mapM_cons]
    refine .seq (binds_top markers file d) (fun _ => .bind ih fun _ => .done _) ?_ ?_
    · exact List.Subset.refl []
    · rw [map_cons, standing_cons d.term (ds.map _), append_nil]
      exact List.Subset.refl _

theorem binds_file (f : File) : Binds [] (standing [f.term]) (walkFile (collector markers file) f) := by
  unfold walkFile
  refine .seq (binds_tops markers file f.decls) (fun _ => .done _) ?_ ?_
  · exact List.Subset.refl []
  · simp [File.term]

end Walk

/-! ## Checks and runs -/

section Once

variable {markers : Markers} {file : Nat} {tree tree' : File} {out out' : Collected} {i : NodeId}
  {b : CheckBinding}

theorem collectFile_accepted (h : collectFile markers file tree out = .ok (tree', out'))
    (bound : out'.checks.get? i = some b) (new : out.checks.get? i ≠ some b) :
    ∃ t : Stmt, t.statement ∈ standing [tree.term] ∧ t.info.id = b.stmt ∧ i ∈ t.course.accepted := by
  obtain ⟨s', hwalk, -, rfl⟩ := collectFile_walk h
  rcases (binds_file markers file tree).checks hwalk bound with hold | ⟨-, hi⟩ | ht
  · exact absurd hold new
  · cases hi
  · exact ht

/-- **A check that is accepted runs once, but for two kinds of places.** In a file
that has been read, every run of the statement of a check evaluates the check
exactly once, if and only if it stands neither in the right operand of `&&` or
`||` nor in a target of a range clause. -/
theorem accepted_once_iff {text : String} {n n' : NodeId} (parsed : parseFile text n = .ok (tree, n'))
    (collected : collectFile markers file tree out = .ok (tree', out'))
    (bound : out'.checks.get? i = some b) (new : out.checks.get? i ≠ some b) :
    ∃ t : Stmt, t.statement ∈ standing [tree.term] ∧ t.info.id = b.stmt ∧ i ∈ t.course.nodes ∧
      ((∀ τ, t.course.Takes τ → τ.count i = 1) ↔
        i ∉ t.course.doubted .rightOperand ∧ i ∉ t.course.doubted .rangeTarget) := by
  obtain ⟨t, standing, hid, accepted⟩ := collectFile_accepted collected bound new
  have mem := Course.mem_nodes_of_accepted accepted
  have once : t.course.nodes.count i = 1 := by
    have := count_pos_iff.mpr mem
    have := t.count_course_le i
    have : countIn i [t.statement] ≤ countAll i [tree.term] := countIn_le_of_standing standing
    have := parseFile_distinct parsed i
    have := t.count_parts i
    simp only [Stmt.statement, countIn, countAll] at *
    omega
  refine ⟨t, standing, hid, mem, ?_⟩
  rw [Course.once_iff once]
  constructor
  · exact fun sure => ⟨sure _, sure _⟩
  · rintro ⟨right, target⟩ why
    cases why with
    | rightOperand => exact right
    | rangeTarget => exact target
    | _ => exact Course.not_doubted_of_accepted rfl accepted once

end Once

/-- A check in each operand. -/
def checkedOperands : String := "package main\nfunc f() error \x7b\nok := check g() && check h()\nreturn nil\n\x7d\n"

theorem accepted_once_iff_checkedOperands : ∃ lowered tree n' tree' out' b b', lower checkedOperands = .ok lowered ∧
      parseFile lowered.text 0 = .ok (tree, n') ∧
      collectFile lowered.markers 0 tree {} = .ok (tree', out') ∧
      out'.checks.get? 11 = some b ∧ out'.checks.get? 13 = some b' ∧
      (∃ t : Stmt, t.statement ∈ standing [tree.term] ∧ t.info.id = b.stmt ∧ 11 ∈ t.course.nodes ∧
        ((∀ τ, t.course.Takes τ → τ.count 11 = 1) ↔
          11 ∉ t.course.doubted .rightOperand ∧ 11 ∉ t.course.doubted .rangeTarget)) ∧
      ∃ t : Stmt, t.statement ∈ standing [tree.term] ∧ t.info.id = b'.stmt ∧ 13 ∈ t.course.nodes ∧
        ((∀ τ, t.course.Takes τ → τ.count 13 = 1) ↔
          13 ∉ t.course.doubted .rightOperand ∧ 13 ∉ t.course.doubted .rangeTarget) := by
  have run : (collectText checkedOperands).map (fun (_, _, _, out) =>
      ((out.checks.get? 11).isSome, (out.checks.get? 13).isSome)) = some (true, true) := by
    decide +kernel
  obtain ⟨⟨lowered, tree, tree', out'⟩, h, bound⟩ := Option.map_eq_some_iff.mp run
  obtain ⟨n', hlower, hparse, hcollect⟩ := collectFile_of_collectText h
  obtain ⟨b, hb⟩ := Option.isSome_iff_exists.mp (Prod.mk.inj bound).1
  obtain ⟨b', hb'⟩ := Option.isSome_iff_exists.mp (Prod.mk.inj bound).2
  exact ⟨lowered, tree, n', tree', out', b, b', hlower, hparse, hcollect, hb, hb',
    accepted_once_iff hparse hcollect hb nofun, accepted_once_iff hparse hcollect hb' nofun⟩

end CheckHandle
