import CheckHandle.Proofs.Standing

/-!
# Executions of statements

What can happen when statements run, as far as control goes: which simple
statements run, how conditions come out, which clause is taken, and how it all
ends. Conditions, the rounds of a loop and the choice of a clause are
arbitrary. `return` leaves the function, a call of the builtin `panic` aborts, and
`break`, `continue` and `fallthrough` go where they go. A program may declare
another `panic`, so that it is given which identifiers are the builtin. An
execution may also be told in part, so that those without an end are known by
their beginnings.

Where every `panic` is the builtin, nothing after a terminating statement ever
runs, and trimming keeps the executions.
-/

namespace CheckHandle

open List

/-! ## Completions and events -/

inductive Completion where
  /-- The statement after it is next. -/
  | normal
  | broke
  | continued
  | fellThrough
  /-- The function is left. -/
  | returned
  | aborted
  /-- There is more to come. -/
  | underway
deriving DecidableEq

/-- One step of an execution. -/
inductive Event where
  /-- A statement without blocks runs. -/
  | act (s : Stmt)
  /-- A condition is evaluated. -/
  | test (x : Expr) (holds : Bool)
  /-- What a `range` or a `switch` is about is evaluated. -/
  | operand (x : Expr)
  /-- A `range` has another element, or is through. -/
  | element (key value : Option Expr) (more : Bool)
  /-- The clause with this number is taken, or none. -/
  | choice (clause : Option Nat)

/-- A set of executions, each with its events and its outcome. -/
abbrev Executions := List Event → Completion → Prop

namespace Executions

/-- Nothing happens. -/
def done : Executions := fun τ o => τ = [] ∧ o = .normal

/-- There is no execution. -/
def never : Executions := fun _ _ => False

/-- One event, and then the outcome `o`. -/
def one (e : Event) (o : Completion) : Executions := fun τ o' => τ = [] ∧ o' = .underway ∨ τ = [e] ∧ o' = o

/-- `b` runs where `a` completes normally. -/
def andThen (a b : Executions) : Executions :=
  fun τ o => o ≠ .normal ∧ a τ o ∨ ∃ τ₁ τ₂, τ = τ₁ ++ τ₂ ∧ a τ₁ .normal ∧ b τ₂ o

/-- `b` runs where `a` ends with `fallthrough`. -/
def falling (a b : Executions) : Executions :=
  fun τ o => o ≠ .fellThrough ∧ a τ o ∨ ∃ τ₁ τ₂, τ = τ₁ ++ τ₂ ∧ a τ₁ .fellThrough ∧ b τ₂ o

def either (a b : Executions) : Executions := fun τ o => a τ o ∨ b τ o

/-- The outcome `k` has its target here. -/
def absorb (k : Completion) (a : Executions) : Executions := fun τ o => o ≠ k ∧ a τ o ∨ o = .normal ∧ a τ k

/-- Any number of rounds, until one does not complete normally or the loop is
left. -/
inductive Rounds (round leave : Executions) : Executions
  | before : Rounds round leave [] .underway
  | left {τ : List Event} {o : Completion} (h : leave τ o) : Rounds round leave τ o
  | stopped {τ : List Event} {o : Completion} (h : round τ o) (ho : o ≠ .normal) : Rounds round leave τ o
  | again {τ₁ τ₂ : List Event} {o : Completion} (first : round τ₁ .normal)
      (rest : Rounds round leave τ₂ o) : Rounds round leave (τ₁ ++ τ₂) o

/-- A loop: in each round `enter`, the body and `post`. -/
def loop (enter leave body post : Executions) : Executions :=
  absorb .broke (Rounds (enter.andThen ((absorb .continued body).andThen post)) leave)

/-- The executions of one after the other. -/
def inTurn : List Executions → Executions
  | [] => done
  | a :: as => a.andThen (inTurn as)

/-- The bodies of the clauses from one on: a clause may fall into the next. -/
def fallFrom : List Executions → Executions
  | [] => done
  | a :: as => a.falling (fallFrom as)

/-- The clauses from number `n` on, one of which is taken. -/
def chosen (n : Nat) : List Executions → Executions
  | [] => never
  | a :: as =>
    either ((one (.choice (some n)) .normal).andThen (fallFrom (a :: as))) (chosen (n + 1) as)

end Executions

/-! ## Statements -/

open Executions

section Statements

-- The identifiers that do not stand for a declaration of the program.
variable (builtin : NodeId → Bool)

/-- The builtin that aborts. -/
def Expr.isPanic : Expr → Bool
  | .ident info name => name == "panic" && builtin info.id
  | .paren _ x => x.isPanic
  | _ => false

def Expr.callsPanic : Expr → Bool
  | .call _ fn _ _ => fn.isPanic builtin
  | .paren _ x => x.callsPanic
  | _ => false

def BranchKind.completion : BranchKind → Completion
  | .break => .broke
  | .continue => .continued
  | .fallthrough => .fellThrough

def CaseClause.isDefault : CaseClause → Bool
  | .case .. => false
  | .default .. => true

/-- The operand of a statement, if it has one. -/
def operandExecutions : Option Expr → Executions
  | none => done
  | some x => one (.operand x) .normal

/-- A condition comes out as `holds`; without one, a loop goes on. -/
def testExecutions (holds : Bool) : Option Expr → Executions
  | none => if holds then done else never
  | some x => one (.test x holds) .normal

mutual

def Stmt.executions : Stmt → Executions
  | .expr info x => one (.act (.expr info x)) (if x.callsPanic builtin then .aborted else .normal)
  | .ret info results => one (.act (.ret info results)) .returned
  | .branch info kind => one (.act (.branch info kind)) kind.completion
  | .cond _ init test body other =>
    (headerExecutions init).andThen (either ((one (.test test true) .normal).andThen body.executions)
        ((one (.test test false) .normal).andThen (headerExecutions other)))
  | .loop _ init test post body =>
    (headerExecutions init).andThen (loop (testExecutions true test) (testExecutions false test) body.executions
        (headerExecutions post))
  | .range _ key value _ x body =>
    (one (.operand x) .normal).andThen
      (loop (one (.element key value true) .normal) (one (.element key value false) .normal) body.executions done)
  | .switch _ init tag clauses =>
    (headerExecutions init).andThen ((operandExecutions tag).andThen
      (absorb .broke (either (chosen 0 (clauseExecutions clauses))
        (if clauses.any CaseClause.isDefault then never else one (.choice none) .normal))))
  | .block _ body => body.executions
  | .assign info lhs op rhs => one (.act (.assign info lhs op rhs)) .normal
  | .incDec info x increment => one (.act (.incDec info x increment)) .normal
  | .decl info d => one (.act (.decl info d)) .normal
  | .go info call => one (.act (.go info call)) .normal
  | .defer info call => one (.act (.defer info call)) .normal

/-- A statement in a header or after `else`, if there is one. -/
def headerExecutions : Option Stmt → Executions
  | none => done
  | some s => s.executions

def Block.executions : Block → Executions
  | ⟨_, stmts⟩ => listExecutions stmts

def listExecutions : List Stmt → Executions
  | [] => done
  | s :: ss => s.executions.andThen (listExecutions ss)

/-- The bodies of the clauses. -/
def clauseExecutions : List CaseClause → List Executions
  | [] => []
  | .case _ _ body :: cs => body.executions :: clauseExecutions cs
  | .default _ body :: cs => body.executions :: clauseExecutions cs

end

end Statements

/-! ## Sequences -/

namespace Executions

theorem done_andThen (a : Executions) : done.andThen a = a := by
  funext τ o
  apply propext
  constructor
  · rintro (⟨abrupt, -, normal⟩ | ⟨τ1, τ2, rfl, ⟨rfl, -⟩, h⟩)
    · exact absurd normal abrupt
    · exact h
  · intro h
    exact .inr ⟨[], τ, rfl, ⟨rfl, rfl⟩, h⟩

theorem andThen_done (a : Executions) : a.andThen done = a := by
  funext τ o
  apply propext
  constructor
  · rintro (⟨-, h⟩ | ⟨τ1, τ2, rfl, h, rfl, rfl⟩)
    · exact h
    · rwa [append_nil]
  · intro h
    by_cases normal : o = .normal
    · exact .inr ⟨τ, [], (append_nil τ).symm, normal ▸ h, rfl, normal⟩
    · exact .inl ⟨normal, h⟩

theorem andThen_assoc (a b c : Executions) : (a.andThen b).andThen c = a.andThen (b.andThen c) := by
  funext τ o
  apply propext
  constructor
  · rintro (⟨abrupt, ⟨-, h⟩ | ⟨τ1, τ2, rfl, h1, h2⟩⟩ | ⟨_, τ3, rfl, ⟨abrupt, -⟩ | ⟨τ1, τ2, rfl, h1, h2⟩, h3⟩)
    · exact .inl ⟨abrupt, h⟩
    · exact .inr ⟨τ1, τ2, rfl, h1, .inl ⟨abrupt, h2⟩⟩
    · exact absurd rfl abrupt
    · exact .inr ⟨τ1, τ2 ++ τ3, append_assoc .., h1, .inr ⟨τ2, τ3, rfl, h2, h3⟩⟩
  · rintro (⟨abrupt, h⟩ | ⟨τ1, τ', rfl, h1, ⟨abrupt, h2⟩ | ⟨τ2, τ3, rfl, h2, h3⟩⟩)
    · exact .inl ⟨abrupt, .inl ⟨abrupt, h⟩⟩
    · exact .inl ⟨abrupt, .inr ⟨τ1, τ', rfl, h1, h2⟩⟩
    · exact .inr ⟨τ1 ++ τ2, τ3, (append_assoc ..).symm, .inr ⟨τ1, τ2, rfl, h1, h2⟩, h3⟩

/-- Nothing runs after what never completes normally. -/
theorem andThen_of_not_normal {a : Executions} (h : ∀ τ, ¬ a τ .normal) (b : Executions) : a.andThen b = a := by
  funext τ o
  apply propext
  constructor
  · rintro (⟨-, ha⟩ | ⟨τ1, -, -, ha, -⟩)
    · exact ha
    · exact absurd ha (h τ1)
  · intro ha
    refine .inl ⟨?_, ha⟩
    rintro rfl
    exact h τ ha

theorem andThen_normal {a b : Executions} {τ : List Event} (h : a.andThen b τ .normal) :
    ∃ τ1 τ2, τ = τ1 ++ τ2 ∧ a τ1 .normal ∧ b τ2 .normal := by
  rcases h with ⟨abrupt, -⟩ | h
  · exact absurd rfl abrupt
  · exact h

theorem inTurn_append (as bs : List Executions) : inTurn (as ++ bs) = (inTurn as).andThen (inTurn bs) := by
  induction as with
  | nil => exact (done_andThen _).symm
  | cons a as ih => rw [cons_append, inTurn, ih, inTurn, andThen_assoc]

end Executions

variable {builtin : NodeId → Bool}

theorem listExecutions_append (ss ts : List Stmt) : listExecutions builtin (ss ++ ts) =
    (listExecutions builtin ss).andThen (listExecutions builtin ts) := by
  induction ss with
  | nil => exact (done_andThen _).symm
  | cons s ss ih => rw [cons_append, listExecutions, ih, listExecutions, andThen_assoc]

theorem listExecutions_singleton (s : Stmt) : listExecutions builtin [s] = s.executions builtin := by
  rw [listExecutions, listExecutions, andThen_done]

theorem listExecutions_flatten (lists : List (List Stmt)) :
    listExecutions builtin lists.flatten = inTurn (lists.map (listExecutions builtin)) := by
  induction lists with
  | nil => rfl
  | cons ss lists ih => rw [flatten_cons, listExecutions_append, ih, map_cons, inTurn]

/-! ## Terminating statements -/

/-- The expression is the builtin if it is spelled `panic`. -/
def PanicBuiltin (builtin : NodeId → Bool) (kind : Kind) (info : Info) (_ : List Term) : Prop :=
  kind = .ident "panic" → builtin info.id

/-- Every `panic` in these parts of a statement is the builtin. -/
abbrev PanicsBuiltin (builtin : NodeId → Bool) (parts : List Term) : Prop :=
  EveryTerms (PanicBuiltin builtin) (fun _ _ _ => True) parts

/-- Every `panic` in these statements is the builtin. -/
abbrev AllPanicsBuiltin (builtin : NodeId → Bool) (ss : List Stmt) : Prop :=
  EveryIn (PanicBuiltin builtin) (fun _ _ _ => True) (statements ss)

theorem allPanicsBuiltin_cons {s : Stmt} {ss : List Stmt} : AllPanicsBuiltin builtin (s :: ss) ↔
    PanicsBuiltin builtin s.parts ∧ AllPanicsBuiltin builtin ss := by
  simp [AllPanicsBuiltin, statements, EveryIn]

attribute [local simp] Stmt.parts stmtTerm? Block.term clauseTerms EveryTerms Term.Every

theorem callsPanic_of_argsOf? {x : Expr} (h : (x.argsOf? "panic").isSome)
    (panics : PanicsBuiltin builtin [x.term false]) :
    x.callsPanic builtin := by
  unfold Expr.argsOf? at h
  split at h
  · rename_i info inner name args ellipsis
    split at h
    · rename_i named
      obtain rfl := eq_of_beq named
      have known : builtin inner.id = true := by
        simp only [Expr.term, Expr.parts, EveryTerms, Term.Every] at panics
        exact panics.1.2.1.1 rfl
      simp [Expr.callsPanic, Expr.isPanic, known]
    · cases h
  · cases h

mutual

/-- A terminating statement never completes normally. -/
theorem Stmt.not_normal_of_isTerminating {s : Stmt} (h : s.isTerminating) (panics : PanicsBuiltin builtin s.parts)
    (τ : List Event) : ¬ s.executions builtin τ .normal := by
  intro ran
  cases s with
  | ret info results =>
    rcases ran with ⟨-, o⟩ | ⟨-, o⟩ <;> cases o
  | expr info x =>
    rw [Stmt.executions, if_pos (callsPanic_of_argsOf? h panics)] at ran
    rcases ran with ⟨-, o⟩ | ⟨-, o⟩ <;> cases o
  | block info body =>
    obtain ⟨inner, stmts⟩ := body
    rw [Stmt.executions, Block.executions] at ran
    exact not_normal_of_anyTerminating h (by simpa using panics) τ ran
  | cond info init test body other =>
    obtain ⟨inner, stmts⟩ := body
    cases other with
    | none => cases h
    | some other =>
      rw [Stmt.isTerminating, Bool.and_eq_true] at h
      obtain ⟨-, -, ours, theirs⟩ : _ ∧ _ ∧ AllPanicsBuiltin builtin stmts ∧ PanicsBuiltin builtin other.parts := by
        simpa using panics
      obtain ⟨_, τ', -, -, ran⟩ := andThen_normal ran
      rcases ran with ran | ran
      · obtain ⟨_, τ'', -, -, ran⟩ := andThen_normal ran
        exact not_normal_of_anyTerminating h.1 ours τ'' ran
      · obtain ⟨_, τ'', -, -, ran⟩ := andThen_normal ran
        exact Stmt.not_normal_of_isTerminating h.2 theirs τ'' ran
  | assign | incDec | decl | loop | range | switch | go | defer | branch => cases h

theorem not_normal_of_anyTerminating {ss : List Stmt} (h : anyTerminating ss) (panics : AllPanicsBuiltin builtin ss)
    (τ : List Event) : ¬ listExecutions builtin ss τ .normal := by
  intro ran
  cases ss with
  | nil => cases h
  | cons s ss =>
    obtain ⟨ours, theirs⟩ := allPanicsBuiltin_cons.mp panics
    obtain ⟨τ1, τ2, -, ran1, ran2⟩ := andThen_normal ran
    rw [anyTerminating, Bool.or_eq_true] at h
    rcases h with h | h
    · exact Stmt.not_normal_of_isTerminating h ours τ1 ran1
    · exact not_normal_of_anyTerminating h theirs τ2 ran2

end

/-! ## Trimming -/

section

attribute [local simp] Stmt.trim trimStmts Stmt.isTerminating anyTerminating

mutual

/-- A statement terminates as it did before trimming. -/
theorem Stmt.isTerminating_trim : ∀ s : Stmt, s.trim.isTerminating = s.isTerminating
  | .block _ ⟨_, stmts⟩ => by simp [anyTerminating_trimStmts stmts]
  | .cond _ _ _ ⟨_, stmts⟩ none => by simp
  | .cond _ _ _ ⟨_, stmts⟩ (some other) => by simp [anyTerminating_trimStmts stmts, other.isTerminating_trim]
  | .loop _ _ _ _ ⟨_, _⟩ | .range _ _ _ _ _ ⟨_, _⟩ | .switch .. => by simp
  | .expr .. | .assign .. | .incDec .. | .decl .. | .ret .. | .go .. | .defer .. | .branch .. => rfl

theorem anyTerminating_trimStmts : ∀ ss : List Stmt, anyTerminating (trimStmts ss) = anyTerminating ss
  | [] => rfl
  | s :: ss => by
    rw [trimStmts]
    split
    · rename_i terminating
      rw [s.isTerminating_trim] at terminating
      simp [s.isTerminating_trim, terminating]
    · simp [s.isTerminating_trim, anyTerminating_trimStmts ss]

end

end

theorem any_isDefault_trimClauses (cs : List CaseClause) :
    (trimClauses cs).any CaseClause.isDefault = cs.any CaseClause.isDefault := by
  induction cs with
  | nil => rfl
  | cons c cs ih =>
    rcases c with ⟨info, values, inner, stmts⟩ | ⟨info, inner, stmts⟩ <;>
      rw [trimClauses, any_cons, any_cons, ih] <;> rfl

mutual

/-- Trimming drops nothing that could run. -/
theorem Stmt.executions_trim (s : Stmt) (panics : PanicsBuiltin builtin s.parts) :
    s.trim.executions builtin = s.executions builtin := by
  cases s with
  | block info body =>
    obtain ⟨inner, stmts⟩ := body
    have inside := listExecutions_trimStmts stmts (by simpa using panics)
    simp only [Stmt.trim, Stmt.executions, Block.executions, inside]
  | cond info init test body other =>
    obtain ⟨inner, stmts⟩ := body
    cases other with
    | none =>
      obtain ⟨-, -, ours, -⟩ : _ ∧ _ ∧ AllPanicsBuiltin builtin stmts ∧ _ := by simpa using panics
      simp only [Stmt.trim, Stmt.executions, Block.executions, listExecutions_trimStmts stmts ours]
    | some other =>
      obtain ⟨-, -, ours, theirs⟩ : _ ∧ _ ∧ AllPanicsBuiltin builtin stmts ∧ PanicsBuiltin builtin other.parts := by
        simpa using panics
      simp only [Stmt.trim, Stmt.executions, Block.executions, listExecutions_trimStmts stmts ours,
        headerExecutions, Stmt.executions_trim other theirs]
  | loop info init test post body | range info key value define x body =>
    obtain ⟨inner, stmts⟩ := body
    have inside := listExecutions_trimStmts stmts (by simp at panics; first | exact panics.2.2 | exact panics.2.2.2)
    simp only [Stmt.trim, Stmt.executions, Block.executions, inside]
  | switch info init tag clauses =>
    have inside := clauseExecutions_trimClauses clauses (by simp at panics; exact panics.2.2)
    simp only [Stmt.trim, Stmt.executions, inside, any_isDefault_trimClauses]
  | expr | assign | incDec | decl | ret | go | defer | branch => rfl

theorem listExecutions_trimStmts (ss : List Stmt) (panics : AllPanicsBuiltin builtin ss) :
    listExecutions builtin (trimStmts ss) = listExecutions builtin ss := by
  cases ss with
  | nil => rfl
  | cons s ss =>
    obtain ⟨ours, theirs⟩ := allPanicsBuiltin_cons.mp panics
    rw [trimStmts, listExecutions]
    split
    · rename_i terminating
      rw [s.isTerminating_trim] at terminating
      rw [listExecutions_singleton, s.executions_trim ours,
        andThen_of_not_normal (Stmt.not_normal_of_isTerminating terminating ours)]
    · rw [listExecutions, s.executions_trim ours, listExecutions_trimStmts ss theirs]

theorem clauseExecutions_trimClauses (cs : List CaseClause) (panics : PanicsBuiltin builtin (clauseTerms cs)) :
    clauseExecutions builtin (trimClauses cs) = clauseExecutions builtin cs := by
  cases cs with
  | nil => rfl
  | cons c cs =>
    cases c with
    | case info values body | default info body =>
      obtain ⟨inner, stmts⟩ := body
      have ours := listExecutions_trimStmts stmts (by simp at panics; first | exact panics.1 | exact panics.1.2)
      have theirs := clauseExecutions_trimClauses cs (by simp at panics; exact panics.2)
      simp only [trimClauses, clauseExecutions, Block.executions, ours, theirs]

end

/-- A list that is cut after its first terminating statement: it ends with
that one. -/
def EndsTerminating (ss : List Stmt) : Prop :=
  ∃ init last, ss = init ++ [last] ∧ last.isTerminating ∧ ∀ s ∈ init, ¬ s.isTerminating

theorem trimStmts_endsTerminating {last : Stmt} (h : last.trim.isTerminating) (ss : List Stmt) :
    EndsTerminating (trimStmts (ss ++ [last])) := by
  induction ss with
  | nil =>
    refine ⟨[], last.trim, ?_, h, nofun⟩
    rw [nil_append, trimStmts, if_pos h]
    rfl
  | cons s ss ih =>
    rw [cons_append, trimStmts]
    by_cases terminating : s.trim.isTerminating
    · refine ⟨[], s.trim, ?_, terminating, nofun⟩
      rw [if_pos terminating]
      rfl
    · obtain ⟨init, last', trimmed, hlast, others⟩ := ih
      refine ⟨s.trim :: init, last', ?_, hlast, ?_⟩
      · rw [if_neg terminating, trimmed]
        rfl
      · intro s' hs'
        rcases mem_cons.mp hs' with rfl | hs'
        · exact terminating
        · exact others s' hs'

/-! ## Handling an error -/

/-- The default is a `return` or a call of `panic`. -/
theorem defaultHandler_isTerminating (info : TypeInfo) (slots : List TypeExpr) (errVar : String) (n : NodeId) :
    let default := (defaultHandler info slots errVar n).1
    default.trim = default ∧ default.isTerminating := by
  unfold defaultHandler
  rcases slots.getLast? with _ | last
  · exact ⟨rfl, rfl⟩
  · dsimp only
    split
    · exact ⟨rfl, rfl⟩
    · exact ⟨rfl, rfl⟩

/-- The statements of a handler, with new identities and with the name of the
error put in. -/
def Handler.Copies (errVar : String) (h : Handler) (copy : List Stmt) : Prop :=
  ∃ n n', h.instantiate errVar n = (copy, n')

theorem mapM_copies {errVar : String} {hs : List Handler} {copies : List (List Stmt)}
    {n n' : NodeId} (h : hs.mapM (fun h => h.instantiate errVar) n = (copies, n')) :
    List.Forall₂ (Handler.Copies errVar) hs copies := by
  induction hs generalizing copies n n' with
  | nil =>
    rw [mapM_nil, fresh_pure] at h
    obtain ⟨rfl, -⟩ := h
    exact .nil
  | cons handler hs ih =>
    simp only [mapM_cons, fresh_bind, fresh_pure] at h
    obtain ⟨copy, n1, first, others, n2, rest, rfl, -⟩ := h
    exact .cons ⟨n, n1, first⟩ (ih rest)

end CheckHandle
