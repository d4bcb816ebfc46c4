import CheckHandle.Proofs.StandIn

/-!
# Dead code

Code after a terminating statement is dead if every `panic` is the builtin. Then
trimming drops dead code and nothing else: the executions stay, no block has any
dead code left, and what was terminating before is so afterwards. Hence what
handles an error runs the copies of the handlers in turn and then the default,
and never completes normally. A call of a `panic` that the program declares goes
on with what follows, but trimming drops that too, and the error is passed over.
-/

namespace CheckHandle

open List Executions

mutual

/-- Nothing follows a terminating statement in a block, branch or clause of the
statement, on any level. -/
def Stmt.IsLive : Stmt → Prop
  | .block _ ⟨_, stmts⟩ => AreLive stmts
  | .cond _ _ _ ⟨_, stmts⟩ none => AreLive stmts
  | .cond _ _ _ ⟨_, stmts⟩ (some other) => AreLive stmts ∧ other.IsLive
  | .loop _ _ _ _ ⟨_, stmts⟩ => AreLive stmts
  | .range _ _ _ _ _ ⟨_, stmts⟩ => AreLive stmts
  | .switch _ _ _ clauses => ClausesAreLive clauses
  | _ => True

def AreLive : List Stmt → Prop
  | [] => True
  | s :: ss => (s.isTerminating → ss = []) ∧ s.IsLive ∧ AreLive ss

def ClausesAreLive : List CaseClause → Prop
  | [] => True
  | .case _ _ ⟨_, stmts⟩ :: cs => AreLive stmts ∧ ClausesAreLive cs
  | .default _ ⟨_, stmts⟩ :: cs => AreLive stmts ∧ ClausesAreLive cs

end

attribute [local simp] Stmt.IsLive AreLive ClausesAreLive Stmt.trim trimStmts trimClauses

mutual

/-- Trimming leaves no dead code. -/
theorem Stmt.isLive_trim : ∀ s : Stmt, s.trim.IsLive
  | .block _ ⟨_, stmts⟩ | .cond _ _ _ ⟨_, stmts⟩ none | .loop _ _ _ _ ⟨_, stmts⟩
  | .range _ _ _ _ _ ⟨_, stmts⟩ => by simpa using areLive_trimStmts stmts
  | .cond _ _ _ ⟨_, stmts⟩ (some other) => by simpa using ⟨areLive_trimStmts stmts, other.isLive_trim⟩
  | .switch _ _ _ clauses => by simpa using areLive_trimClauses clauses
  | .expr .. | .assign .. | .incDec .. | .decl .. | .ret .. | .go .. | .defer .. | .branch .. => by simp

theorem areLive_trimStmts : ∀ ss : List Stmt, AreLive (trimStmts ss)
  | [] => trivial
  | s :: ss => by
    rw [trimStmts]
    split
    · exact ⟨fun _ => rfl, s.isLive_trim, trivial⟩
    · rename_i goesOn
      exact ⟨fun terminating => absurd terminating goesOn, s.isLive_trim, areLive_trimStmts ss⟩

theorem areLive_trimClauses : ∀ cs : List CaseClause, ClausesAreLive (trimClauses cs)
  | [] => trivial
  | .case _ _ ⟨_, stmts⟩ :: cs | .default _ ⟨_, stmts⟩ :: cs => by
    simpa using ⟨areLive_trimStmts stmts, areLive_trimClauses cs⟩

end

mutual

/-- Where no code is dead there is nothing to trim. -/
theorem Stmt.IsLive.trim_eq : ∀ {s : Stmt}, s.IsLive → s.trim = s
  | .block _ ⟨_, _⟩, h | .cond _ _ _ ⟨_, _⟩ none, h | .loop _ _ _ _ ⟨_, _⟩, h
  | .range _ _ _ _ _ ⟨_, _⟩, h => by simpa using AreLive.trim_eq (by simpa using h)
  | .cond _ _ _ ⟨_, _⟩ (some _), h => by
    obtain ⟨body, other⟩ : AreLive _ ∧ Stmt.IsLive _ := by simpa using h
    simpa using ⟨body.trim_eq, other.trim_eq⟩
  | .switch .., h => by simpa using ClausesAreLive.trim_eq (by simpa using h)
  | .expr .., _ | .assign .., _ | .incDec .., _ | .decl .., _ | .ret .., _ | .go .., _ | .defer .., _
  | .branch .., _ => by simp

theorem AreLive.trim_eq : ∀ {ss : List Stmt}, AreLive ss → trimStmts ss = ss
  | [], _ => rfl
  | s :: ss, ⟨last, live, rest⟩ => by
    rw [trimStmts, live.trim_eq, rest.trim_eq]
    split
    · rename_i terminating
      rw [last terminating]
    · rfl

theorem ClausesAreLive.trim_eq : ∀ {cs : List CaseClause}, ClausesAreLive cs → trimClauses cs = cs
  | [], _ => rfl
  | .case _ _ ⟨_, _⟩ :: _, h | .default _ ⟨_, _⟩ :: _, h => by
    obtain ⟨body, rest⟩ : AreLive _ ∧ ClausesAreLive _ := by simpa using h
    simpa using ⟨body.trim_eq, rest.trim_eq⟩

end

/-- What is kept stands first, each statement trimmed inside. -/
theorem trimStmts_eq_map_take (ss : List Stmt) : ∃ n, trimStmts ss = (ss.take n).map Stmt.trim := by
  induction ss with
  | nil => exact ⟨0, rfl⟩
  | cons s ss ih =>
    obtain ⟨n, kept⟩ := ih
    rw [trimStmts]
    split
    · exact ⟨1, rfl⟩
    · exact ⟨n + 1, by rw [kept]; rfl⟩

theorem anyTerminating_append_last {last : Stmt} (h : last.isTerminating) (ss : List Stmt) :
    anyTerminating (ss ++ [last]) := by
  induction ss <;> simp_all [anyTerminating]

section Call

variable {builtin : NodeId → Bool} {pre post : List Stmt} {info : Info} {x : Expr}

/-- Nothing is kept behind a call that is spelled `panic`. -/
theorem trimStmts_call (panic : (x.argsOf? "panic").isSome) (goesOn : ∀ s ∈ pre, ¬ s.isTerminating) :
    trimStmts (pre ++ .expr info x :: post) = pre.map Stmt.trim ++ [.expr info x] := by
  induction pre with
  | nil => simp [Stmt.isTerminating, panic]
  | cons s pre ih =>
    rw [forall_mem_cons] at goesOn
    rw [cons_append, trimStmts, s.isTerminating_trim, if_neg goesOn.1, ih goesOn.2]
    rfl

/-- A call of another `panic` goes on with what follows. -/
theorem listExecutions_call (other : ¬ x.callsPanic builtin) {τ τ' : List Event} {o : Completion}
    (before : listExecutions builtin pre τ .normal) (after : listExecutions builtin post τ' o) :
    listExecutions builtin (pre ++ .expr info x :: post) (τ ++ .act (.expr info x) :: τ') o := by
  rw [listExecutions_append, listExecutions, Stmt.executions, if_neg other]
  exact .inr ⟨τ, _, rfl, before, .inr ⟨[_], τ', rfl, .inr ⟨rfl, rfl⟩, after⟩⟩

end Call

/-- **Trimming drops dead code, and all of it, where every `panic` is the
builtin.** Then the executions are the same. After the first call that is spelled
`panic` nothing is kept in any case, although it runs if the call is one of
another function. What is kept are the first statements. Of these, on all levels,
none follows a terminating one, each terminates if it did before, and trimming
them again changes nothing. -/
theorem trimStmts_deadCode (builtin : NodeId → Bool) (ss : List Stmt) :
    (AllPanicsBuiltin builtin ss → listExecutions builtin (trimStmts ss) = listExecutions builtin ss) ∧
    (∀ pre info x post, ss = pre ++ .expr info x :: post → (x.argsOf? "panic").isSome →
      (∀ s ∈ pre, ¬ s.isTerminating) →
      trimStmts ss = pre.map Stmt.trim ++ [.expr info x] ∧
      (¬ x.callsPanic builtin → ∀ τ τ' o, listExecutions builtin pre τ .normal →
        listExecutions builtin post τ' o → listExecutions builtin ss (τ ++ .act (.expr info x) :: τ') o)) ∧
    (∃ n, trimStmts ss = (ss.take n).map Stmt.trim) ∧
    AreLive (trimStmts ss) ∧
    (∀ s : Stmt, s.trim.isTerminating = s.isTerminating) ∧
    trimStmts (trimStmts ss) = trimStmts ss := by
  refine ⟨listExecutions_trimStmts ss, ?_, trimStmts_eq_map_take ss, areLive_trimStmts ss, Stmt.isTerminating_trim,
    (areLive_trimStmts ss).trim_eq⟩
  rintro pre info x post rfl panic goesOn
  exact ⟨trimStmts_call panic goesOn, fun other _ _ _ before after => listExecutions_call other before after⟩

/-- **An error is never passed over where every `panic` is the builtin.** What
handles an error ends with its one terminating statement. It is made of copies of
the bodies of the handlers, in the order of the chain and with the name of the
error put in. Its executions are then those of the copies in turn and of the
default, and none of them completes normally. But where a call of another `panic`
comes first, all that follows is dropped, and the error is passed over. -/
theorem handlingBody_executions (builtin : NodeId → Bool) (info : TypeInfo) (slots : List TypeExpr)
    (chain : List Nat) (handlers : List Handler) (errVar : String) (n n₁ : NodeId) :
    let default := (defaultHandler info slots errVar n).1
    let body := (handlingBody chain handlers errVar default n₁).1
    EndsTerminating body ∧ ∃ copies,
      List.Forall₂ (fun h copy => AreLike (substName handleError errVar) h.body.stmts copy)
        (chain.filterMap fun i => handlers[i]?) copies ∧
      (AllPanicsBuiltin builtin (copies.flatten ++ [default]) →
        listExecutions builtin body =
          inTurn (copies.map (listExecutions builtin) ++ [default.executions builtin]) ∧
        ∀ τ, ¬ listExecutions builtin body τ .normal) ∧
      ∀ pre i x post, copies.flatten ++ [default] = pre ++ .expr i x :: post →
        (x.argsOf? "panic").isSome → ¬ x.callsPanic builtin → (∀ s ∈ pre, ¬ s.isTerminating) →
        body = pre.map Stmt.trim ++ [.expr i x] ∧
        ∀ τ, listExecutions builtin (pre.map Stmt.trim) τ .normal →
          listExecutions builtin body (τ ++ [.act (.expr i x)]) .normal := by
  intro default body
  obtain ⟨kept, terminating⟩ := defaultHandler_isTerminating info slots errVar n
  obtain ⟨copies, n₂, hcopies, hbody⟩ := fresh_bind.mp
    (show handlingBody chain handlers errVar default n₁ = (body, _) from rfl)
  obtain ⟨trimmed, -⟩ := fresh_pure.mp hbody
  refine ⟨?_, copies, (mapM_copies hcopies).imp fun _ _ => Handler.Copies.areLike, fun panics => ?_, ?_⟩
  · rw [trimmed]
    apply trimStmts_endsTerminating
    rw [kept]
    exact terminating
  · have runs := listExecutions_trimStmts _ panics
    refine ⟨?_, fun τ ran => ?_⟩
    · rw [trimmed, runs, listExecutions_append, listExecutions_flatten, inTurn_append, listExecutions_singleton]
      simp only [inTurn, andThen_done]
    · rw [trimmed, runs] at ran
      exact not_normal_of_anyTerminating (anyTerminating_append_last terminating _) panics τ ran
  · intro pre i x post parts panic other goesOn
    have cut := trimmed.trans (parts ▸ trimStmts_call panic goesOn)
    refine ⟨cut, fun τ before => ?_⟩
    rw [cut]
    exact listExecutions_call other before ⟨rfl, rfl⟩

end CheckHandle
