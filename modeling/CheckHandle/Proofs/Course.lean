import CheckHandle.Proofs.Term

/-!
# What a statement evaluates

The course of a statement says which of its expressions an execution evaluates,
and in what order: a regular expression over nodes. A part that is not sure to
run once is marked with the reason. The statements of a block inside have
courses of their own.

If a node stands once in a course, every run evaluates it exactly once if and
only if there is no doubt about it (`Course.once_iff`).
-/

namespace CheckHandle

open List

variable {τ : List NodeId} {why : Doubt}

/-- Why an expression may be evaluated never, or more than once. -/
inductive Doubt where
  /-- The right operand of `&&` or `||`. -/
  | rightOperand
  /-- What a range clause assigns to, in every iteration. -/
  | rangeTarget
  | loopHeader
  | elseIfHeader
  /-- A case value after the first, reached if the values before it do not match. -/
  | laterCase
  /-- The call of a `go` or `defer` statement. -/
  | deferred
deriving DecidableEq

/-- Collection refuses a check there. -/
def Doubt.isRefused : Doubt → Bool
  | .rightOperand | .rangeTarget => false
  | _ => true

inductive Course where
  | done
  | eval (id : NodeId)
  | seq (a b : Course)
  /-- Once or not at all. -/
  | maybe (why : Doubt) (a : Course)
  /-- Any number of times. -/
  | repeat (why : Doubt) (a : Course)
  /-- The first part, and then any number of times the second and the first. -/
  | cycle (why : Doubt) (a b : Course)

namespace Course

/-- A run of a course evaluates these nodes, in this order. -/
inductive Takes : Course → List NodeId → Prop
  | done : Takes .done []
  | eval {i} : Takes (.eval i) [i]
  | seq {a b τ τ'} : Takes a τ → Takes b τ' → Takes (.seq a b) (τ ++ τ')
  | skip {why a} : Takes (.maybe why a) []
  | take {why a τ} : Takes a τ → Takes (.maybe why a) τ
  | stop {why a} : Takes (.repeat why a) []
  | again {why a τ τ'} : Takes a τ → Takes (.repeat why a) τ' → Takes (.repeat why a) (τ ++ τ')
  | last {why a b τ} : Takes a τ → Takes (.cycle why a b) τ
  | round {why a b τ τ' τ''} : Takes a τ → Takes b τ' → Takes (.cycle why a b) τ'' →
    Takes (.cycle why a b) (τ ++ (τ' ++ τ''))

def nodes : Course → List NodeId
  | .done => []
  | .eval i => [i]
  | .seq a b => a.nodes ++ b.nodes
  | .maybe _ a => a.nodes
  | .repeat _ a => a.nodes
  | .cycle _ a b => a.nodes ++ b.nodes

/-- The nodes that are in doubt for this reason. -/
def doubted (why : Doubt) : Course → List NodeId
  | .done => []
  | .eval _ => []
  | .seq a b => a.doubted why ++ b.doubted why
  | .maybe d a => if d = why then a.nodes else a.doubted why
  | .repeat d a => if d = why then a.nodes else a.doubted why
  | .cycle d a b => if d = why then a.nodes ++ b.nodes else a.doubted why ++ b.doubted why

/-- The nodes where a check is accepted. -/
def accepted : Course → List NodeId
  | .done => []
  | .eval i => [i]
  | .seq a b => a.accepted ++ b.accepted
  | .maybe d a => if d.isRefused then [] else a.accepted
  | .repeat d a => if d.isRefused then [] else a.accepted
  | .cycle d a b => if d.isRefused then [] else a.accepted ++ b.accepted

variable {a : Course} {i : NodeId}

theorem Takes.mem_nodes (h : a.Takes τ) (hi : i ∈ τ) : i ∈ a.nodes := by
  induction h with
  | done => exact hi
  | eval => exact hi
  | seq _ _ ih ih' =>
    rcases mem_append.mp hi with hi | hi
    · exact mem_append_left _ (ih hi)
    · exact mem_append_right _ (ih' hi)
  | skip => cases hi
  | take _ ih => exact ih hi
  | stop => cases hi
  | again _ _ ih ih' =>
    rcases mem_append.mp hi with hi | hi
    · exact ih hi
    · exact ih' hi
  | last _ ih => exact mem_append_left _ (ih hi)
  | round _ _ _ ih ih' ih'' =>
    rcases mem_append.mp hi with hi | hi
    · exact mem_append_left _ (ih hi)
    rcases mem_append.mp hi with hi | hi
    · exact mem_append_right _ (ih' hi)
    · exact ih'' hi

theorem Takes.count_eq_zero (h : a.Takes τ) (hi : a.nodes.count i = 0) : τ.count i = 0 := by
  rw [List.count_eq_zero] at hi ⊢
  exact fun hτ => hi (h.mem_nodes hτ)

theorem exists_takes (a : Course) : ∃ τ, a.Takes τ := by
  induction a with
  | done => exact ⟨_, .done⟩
  | eval i => exact ⟨_, .eval⟩
  | seq a b iha ihb =>
    obtain ⟨τ, hτ⟩ := iha
    obtain ⟨τ', hτ'⟩ := ihb
    exact ⟨_, .seq hτ hτ'⟩
  | maybe => exact ⟨_, .skip⟩
  | «repeat» => exact ⟨_, .stop⟩
  | cycle why a b iha =>
    obtain ⟨τ, hτ⟩ := iha
    exact ⟨τ, .last hτ⟩

theorem mem_nodes_of_doubted (h : i ∈ a.doubted why) : i ∈ a.nodes := by
  induction a with
  | done => exact h
  | eval => cases h
  | seq a b iha ihb =>
    rcases mem_append.mp h with h | h
    · exact mem_append_left _ (iha h)
    · exact mem_append_right _ (ihb h)
  | maybe d a ih | «repeat» d a ih =>
    unfold doubted at h
    split at h
    · exact h
    · exact ih h
  | cycle d a b iha ihb =>
    unfold doubted at h
    split at h
    · exact h
    · rcases mem_append.mp h with h | h
      · exact mem_append_left _ (iha h)
      · exact mem_append_right _ (ihb h)

theorem mem_nodes_of_accepted (h : i ∈ a.accepted) : i ∈ a.nodes := by
  induction a with
  | done => exact h
  | eval => exact h
  | seq a b iha ihb =>
    rcases mem_append.mp h with h | h
    · exact mem_append_left _ (iha h)
    · exact mem_append_right _ (ihb h)
  | maybe d a ih | «repeat» d a ih =>
    unfold accepted at h
    split at h
    · cases h
    · exact ih h
  | cycle d a b iha ihb =>
    unfold accepted at h
    split at h
    · cases h
    · rcases mem_append.mp h with h | h
      · exact mem_append_left _ (iha h)
      · exact mem_append_right _ (ihb h)

/-- A node beyond doubt is evaluated once. -/
theorem Takes.count_eq_one (h : a.Takes τ) (once : a.nodes.count i = 1)
    (sure : ∀ why, i ∉ a.doubted why) : τ.count i = 1 := by
  have mem : i ∈ a.nodes := count_pos_iff.mp (by omega)
  induction a generalizing τ with
  | done => cases mem
  | eval =>
    cases h
    exact once
  | seq a b iha ihb =>
    cases h with
    | @seq _ _ τ τ' ha hb =>
      simp only [nodes, count_append] at once
      rw [count_append]
      rcases Nat.eq_zero_or_pos (a.nodes.count i) with h | h
      · have := ha.count_eq_zero h
        have := ihb hb (by omega) (fun why hi => sure why (mem_append_right _ hi)) (count_pos_iff.mp (by omega))
        omega
      · have := hb.count_eq_zero (i := i) (by omega)
        have := iha ha (by omega) (fun why hi => sure why (mem_append_left _ hi)) (count_pos_iff.mp h)
        omega
  -- whatever these hold is in doubt
  | maybe why | «repeat» why | cycle why => exact absurd mem fun hi => sure why (by rwa [doubted, if_pos rfl])

/-- A node in doubt is not evaluated once in some run. -/
theorem exists_takes_of_doubted (h : i ∈ a.doubted why) (once : a.nodes.count i = 1) :
    ∃ τ, a.Takes τ ∧ τ.count i ≠ 1 := by
  induction a with
  | done => cases h
  | eval => cases h
  | seq a b iha ihb =>
    simp only [nodes, count_append] at once
    rcases mem_append.mp h with h | h
    · have := count_pos_iff.mpr (mem_nodes_of_doubted h)
      obtain ⟨τ, hτ, hcount⟩ := iha h (by omega)
      obtain ⟨τ', hτ'⟩ := b.exists_takes
      have := hτ'.count_eq_zero (i := i) (by omega)
      exact ⟨_, .seq hτ hτ', by rw [count_append]; omega⟩
    · have := count_pos_iff.mpr (mem_nodes_of_doubted h)
      obtain ⟨τ', hτ', hcount⟩ := ihb h (by omega)
      obtain ⟨τ, hτ⟩ := a.exists_takes
      have := hτ.count_eq_zero (i := i) (by omega)
      exact ⟨_, .seq hτ hτ', by rw [count_append]; omega⟩
  | maybe => exact ⟨[], .skip, by simp⟩
  | «repeat» => exact ⟨[], .stop, by simp⟩
  | cycle d a b iha ihb =>
    simp only [nodes, count_append] at once
    obtain ⟨τ, hτ⟩ := a.exists_takes
    obtain ⟨τ', hτ'⟩ := b.exists_takes
    by_cases hcount : τ.count i = 1
    · -- a second round evaluates it again
      have := hτ.mem_nodes (count_pos_iff.mp (by omega : 0 < τ.count i))
      exact ⟨_, .round hτ hτ' (.last hτ), by simp only [count_append]; omega⟩
    · exact ⟨τ, .last hτ, hcount⟩

/-- Every run evaluates a node exactly once if and only if nothing casts doubt
on it. -/
theorem once_iff (once : a.nodes.count i = 1) : (∀ τ, a.Takes τ → τ.count i = 1) ↔ ∀ why, i ∉ a.doubted why := by
  constructor
  · intro all why hi
    obtain ⟨τ, hτ, hcount⟩ := exists_takes_of_doubted hi once
    exact hcount (all τ hτ)
  · exact fun sure τ hτ => hτ.count_eq_one once sure

/-- A check that is accepted is in no doubt for which checks are refused. -/
theorem not_doubted_of_accepted (refused : why.isRefused = true) (h : i ∈ a.accepted)
    (once : a.nodes.count i = 1) : i ∉ a.doubted why := by
  have outside : ∀ {b : Course}, b.nodes.count i = 0 → i ∉ b.doubted why := fun hb hi =>
    List.count_eq_zero.mp hb (mem_nodes_of_doubted hi)
  -- two parts, of which one holds the node
  have both : ∀ {a b : Course}, i ∈ a.accepted ++ b.accepted →
      (a.nodes ++ b.nodes).count i = 1 → (i ∈ a.accepted → a.nodes.count i = 1 → i ∉ a.doubted why) →
      (i ∈ b.accepted → b.nodes.count i = 1 → i ∉ b.doubted why) →
      i ∉ a.doubted why ++ b.doubted why := by
    intro a b h once iha ihb hi
    rw [count_append] at once
    rcases mem_append.mp h with h | h <;>
      have := count_pos_iff.mpr (mem_nodes_of_accepted h) <;>
      rcases mem_append.mp hi with hi | hi
    · exact iha h (by omega) hi
    · exact outside (by omega) hi
    · exact outside (by omega) hi
    · exact ihb h (by omega) hi
  induction a with
  | done => cases h
  | eval => exact not_mem_nil
  | seq a b iha ihb => exact both h once iha ihb
  | maybe d a ih | «repeat» d a ih =>
    unfold accepted at h
    split at h
    · cases h
    · rename_i hd
      have hne : d ≠ why := fun heq => hd (heq ▸ refused)
      rw [doubted, if_neg hne]
      exact ih h once
  | cycle d a b iha ihb =>
    unfold accepted at h
    split at h
    · cases h
    · rename_i hd
      have hne : d ≠ why := fun heq => hd (heq ▸ refused)
      rw [doubted, if_neg hne]
      exact both h once iha ihb

end Course

/-! ## The courses of expressions and statements -/

/-- The second operand is evaluated only if the first does not decide. -/
def BinaryOp.isShort : BinaryOp → Bool
  | .land | .lor => true
  | _ => false

mutual

/-- An expression is evaluated after its operands. -/
def Expr.course : Expr → Course
  | .ident info _ => .eval info.id
  | .lit info _ _ => .eval info.id
  | .composite info _ elts => .seq (coursesOf elts) (.eval info.id)
  | .funcLit info _ _ => .eval info.id
  | .paren info x => .seq x.course (.eval info.id)
  | .selector info x _ => .seq x.course (.eval info.id)
  | .index info x index => .seq x.course (.seq index.course (.eval info.id))
  | .slice info x lo hi max =>
    .seq x.course (.seq (course? lo) (.seq (course? hi) (.seq (course? max) (.eval info.id))))
  | .typeAssert info x _ => .seq x.course (.eval info.id)
  | .call info fn args _ => .seq fn.course (.seq (coursesOf args) (.eval info.id))
  | .unary info _ x => .seq x.course (.eval info.id)
  | .binary info op x y =>
    .seq x.course (.seq (if op.isShort then .maybe .rightOperand y.course else y.course) (.eval info.id))
  | .keyValue info key value => .seq key.course (.seq value.course (.eval info.id))
  | .type info _ => .eval info.id

def course? : Option Expr → Course
  | none => .done
  | some x => x.course

def coursesOf : List Expr → Course
  | [] => .done
  | x :: xs => .seq x.course (coursesOf xs)

end

/-- Case values, in turn until one matches, and then what `rest` says. -/
def valuesCourse (first : Bool) : List Expr → Course → Course
  | [], rest => rest
  | x :: xs, rest =>
    let course := .seq x.course (valuesCourse false xs rest)
    if first then course else .maybe .laterCase course

def clausesCourse (first : Bool) : List CaseClause → Course
  | [] => .done
  | .case _ values _ :: cs => valuesCourse first values (clausesCourse (first && values.isEmpty) cs)
  | .default _ _ :: cs => clausesCourse first cs

def specsCourse : List ValueSpec → Course
  | [] => .done
  | ⟨_, _, _, values⟩ :: specs => .seq (coursesOf values) (specsCourse specs)

def Decl.course : Decl → Course
  | .types _ => .done
  | .vars specs => specsCourse specs
  | .consts specs => specsCourse specs

mutual

def Stmt.course : Stmt → Course
  | .expr _ x => x.course
  | .assign _ lhs _ rhs => .seq (coursesOf lhs) (coursesOf rhs)
  | .incDec _ x _ => x.course
  | .decl _ d => d.course
  | .ret _ results => coursesOf results
  | .cond _ init test _ other =>
    .seq (stmtCourse? init) (.seq test.course (.seq (elseCourse other) (strayCourse other)))
  | .loop _ init test post _ =>
    .seq (stmtCourse? init) (.cycle .loopHeader (course? test) (stmtCourse? post))
  | .range _ key value _ x _ =>
    .seq x.course (.repeat .rangeTarget (.seq (course? key) (course? value)))
  | .switch _ init tag clauses =>
    .seq (stmtCourse? init) (.seq (course? tag) (clausesCourse true clauses))
  | .block .. => .done
  | .go _ call => .maybe .deferred call.course
  | .defer _ call => .maybe .deferred call.course
  | .branch .. => .done

def stmtCourse? : Option Stmt → Course
  | none => .done
  | some s => s.course

/-- The headers of the conditionals after `else`. -/
def elseCourse : Option Stmt → Course
  | some (.cond _ init test _ other) =>
    .maybe .elseIfHeader (.seq (stmtCourse? init) (.seq test.course (elseCourse other)))
  | _ => .done

/-- After the last `else` stands a block, which has no part in this. Any other
statement there is taken to run. -/
def strayCourse : Option Stmt → Course
  | none => .done
  | some (.cond _ _ _ _ other) => strayCourse other
  | some s => s.course

end

end CheckHandle
