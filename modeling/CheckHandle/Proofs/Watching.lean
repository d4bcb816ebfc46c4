import CheckHandle.Proofs.Faithful
import CheckHandle.Proofs.Follow

/-!
# Walks that only watch

A visitor that neither removes nor replaces anything gets back the file it was
given, also when it fails on the way. If it never fails and never skips, the
questions it is asked are those that the tree lists: an expression after its
parts, and what stands in a function or a block between its two questions.
-/

namespace CheckHandle

variable {σ ε α : Type}

/-- A question to a visitor. Expressions, statements and blocks are noted as terms. -/
inductive Question where
  | enterFunc (sig : Term)
  | exitFunc
  | enterBlock (b : Term)
  | exitBlock (b : Term)
  | enterStmt (s : Statement)
  | exitStmt (s : Statement)
  | exitExpr (x : Term)
  /-- The statement that was asked about is not looked into. -/
  | skipped

/-! ## The questions of a tree -/

mutual

def Term.questions : Term → List Question
  | .expr _ .funcLit info [sig, body] =>
    .enterFunc sig :: body.questions ++ [.exitFunc, .exitExpr (.expr false .funcLit info [sig, body])]
  | .expr _ kind info parts => questionsOf parts ++ [.exitExpr (.expr false kind info parts)]
  | .group .func _ [_, _, sig, .block info ss] =>
    .enterFunc sig :: Term.questions (.block info ss) ++ [.exitFunc]
  | .group _ _ parts => questionsOf parts
  | .fixed .. => []
  | .block info ss => .enterBlock (.block info ss) :: questionsIn ss ++ [.exitBlock (.block info ss)]

def questionsOf : List Term → List Question
  | [] => []
  | t :: ts => t.questions ++ questionsOf ts

def questionsIn : List Statement → List Question
  | [] => []
  | .mk kind info parts :: ss =>
    .enterStmt (.mk kind info parts) :: questionsOf parts ++ [.exitStmt (.mk kind info parts)] ++ questionsIn ss

end

theorem questionsOf_append (ts us : List Term) : questionsOf (ts ++ us) = questionsOf ts ++ questionsOf us :=
  append_of_cons rfl (fun _ _ => by simp [questionsOf]) ts us

theorem questionsOf_singleton (t : Term) : questionsOf [t] = t.questions := by simp [questionsOf]

theorem questionsIn_append (ss ts : List Statement) : questionsIn (ss ++ ts) = questionsIn ss ++ questionsIn ts :=
  append_of_cons rfl (fun ⟨_, _, _⟩ _ => by simp [questionsIn]) ss ts

theorem questionsIn_singleton (t : Stmt) : questionsIn [t.statement] =
    [.enterStmt t.statement] ++ (questionsOf t.parts ++ [.exitStmt t.statement]) := by
  simp [questionsIn, Stmt.statement]

/-! ## Visitors that watch -/

/-- The visitor keeps everything. -/
structure Visitor.Watches (v : Visitor σ ε) : Prop where
  enterStmt : ∀ {t s enter s'}, v.enterStmt t s = (.ok enter, s') → enter ≠ .remove
  exitStmt : ∀ {t s action s'}, v.exitStmt t s = (.ok action, s') → action = {}
  exitExpr : ∀ {x position s action s'}, v.exitExpr x position s = (.ok action, s') → action = .keep

theorem Visitor.Watches.recording {v : Visitor σ ε} (h : v.Watches) : v.recording.Watches where
  enterStmt answer := by
    rcases recorded_ok answer with ⟨_, rfl, _⟩ | ⟨_, _, answer, _⟩ | ⟨_, _, _, _, rfl, _⟩
    · exact nofun
    · exact h.enterStmt answer
    · exact nofun
  exitStmt answer := by
    rcases recorded_ok answer with ⟨_, rfl, _⟩ | ⟨_, _, answer, _⟩ | ⟨_, _, _, _, rfl, _⟩
    · rfl
    · exact h.exitStmt answer
    · rfl
  exitExpr answer := by
    rcases recorded_ok answer with ⟨_, rfl, _⟩ | ⟨_, _, answer, _⟩ | ⟨_, _, _, _, rfl, _⟩
    · rfl
    · exact h.exitExpr answer
    · rfl

/-- A step that also notes which question it answers. -/
@[irreducible]
def noting (step : VisitM σ ε α) (question : Except ε α → Question) : VisitM (σ × List Question) ε α := fun (s, noted) =>
  ((step s).1, (step s).2, noted ++ [question (step s).1])

/-- The visitor that notes its questions. -/
def Visitor.noting (v : Visitor σ ε) : Visitor (σ × List Question) ε where
  enterFunc sig := CheckHandle.noting (v.enterFunc sig) fun _ => .enterFunc sig.term
  exitFunc := CheckHandle.noting v.exitFunc fun _ => .exitFunc
  enterBlock b := CheckHandle.noting (v.enterBlock b) fun _ => .enterBlock b.term
  exitBlock b := CheckHandle.noting (v.exitBlock b) fun _ => .exitBlock b.term
  enterStmt s := CheckHandle.noting (v.enterStmt s) fun
    | .ok .skip => .skipped
    | _ => .enterStmt s.statement
  exitStmt s := CheckHandle.noting (v.exitStmt s) fun _ => .exitStmt s.statement
  exitExpr x position := CheckHandle.noting (v.exitExpr x position) fun _ => .exitExpr (x.term false)

theorem noting_ok (step : VisitM σ ε α) {question : Except ε α → Question} {s s' : σ × List Question} {a : α}
    (h : noting step question s = (.ok a, s')) :
    step s.1 = (.ok a, s'.1) ∧ s'.2 = s.2 ++ [question (.ok a)] := by
  obtain ⟨s, noted⟩ := s
  unfold noting at h
  obtain ⟨answer, rest⟩ := Prod.mk.inj h
  subst rest
  rw [← answer]
  exact ⟨rfl, rfl⟩

/-- A visitor walks in the same way when it notes its questions. -/
theorem relates_noting (v : Visitor σ ε) : Relates v v.noting fun m m' => ∀ w noted,
    ∃ noted', m' ⟨(w.state, noted), w.failure⟩ = ((m w).1, ⟨((m w).2.state, noted'), (m w).2.failure⟩) := by
  have ask_noting : ∀ {α : Type} (idle : α) (step : VisitM σ ε α) (question : Except ε α → Question) (w : Walk σ ε)
      (noted : List Question), ∃ noted', ask idle (noting step question) ⟨(w.state, noted), w.failure⟩ =
        ((ask idle step w).1, ⟨((ask idle step w).2.state, noted'), (ask idle step w).2.failure⟩) := by
    rintro α idle step question ⟨s, _ | e⟩ noted
    · simp only [ask, noting]
      rcases step s with ⟨e | a, s'⟩ <;> exact ⟨_, rfl⟩
    · exact ⟨noted, rfl⟩
  exact {
    pure := fun a w noted => ⟨noted, rfl⟩
    bind := fun {α β m m' f f'} hm hf w noted => by
      obtain ⟨noted₁, h₁⟩ := hm w noted
      obtain ⟨noted₂, h₂⟩ := hf (m w).1 (m w).2 noted₁
      exact ⟨noted₂, by rw [bind_apply, bind_apply, h₁, h₂]⟩
    enterFunc := fun _ => ask_noting _ _ _
    exitFunc := ask_noting _ _ _
    enterBlock := fun _ => ask_noting _ _ _
    exitBlock := fun _ => ask_noting _ _ _
    enterStmt := fun _ => ask_noting _ _ _
    exitStmt := fun _ => ask_noting _ _ _
    exitExpr := fun x position => ask_noting _ (v.exitExpr x position) _ }

/-! ## What is noted -/

/-- Between the states, the questions `qs` are noted, unless something is
skipped. -/
def Notes (qs : List Question) (s s' : σ × List Question) : Prop :=
  ∃ noted, s'.2 = s.2 ++ noted ∧ (.skipped ∉ noted → noted = qs)

namespace Notes

variable {qs qs' : List Question} {s s' s₁ : σ × List Question}

theorem refl : Notes [] s s := ⟨[], by simp, fun _ => rfl⟩

theorem trans (h : Notes qs s s₁) (h' : Notes qs' s₁ s') : Notes (qs ++ qs') s s' := by
  obtain ⟨noted, eq, all⟩ := h
  obtain ⟨noted', eq', all'⟩ := h'
  refine ⟨noted ++ noted', by rw [eq', eq, List.append_assoc], fun none => ?_⟩
  rw [List.mem_append, not_or] at none
  rw [all none.1, all' none.2]

theorem step (step : VisitM σ ε α) {question : Except ε α → Question} {a : α}
    (h : noting step question s = (.ok a, s')) : Notes [question (.ok a)] s s' :=
  ⟨_, (noting_ok step h).2, fun _ => rfl⟩

end Notes

/-- What is asked within an expression, before the question about the whole. -/
def Expr.inner : Expr → List Question
  | .funcLit _ sig body => [.enterFunc sig.term] ++ (questionsOf [body.term] ++ [.exitFunc])
  | x => questionsOf x.parts

theorem Expr.questions_term (x : Expr) (listed : Bool) :
    (x.term listed).questions = x.inner ++ [.exitExpr (x.term false)] := by
  cases x with
  | funcLit info sig body =>
    rw [Expr.term, Expr.parts, Expr.kind, Term.questions, Expr.inner, questionsOf_singleton]
    simp [Expr.term, Expr.parts, Expr.kind]
  | _ =>
    rw [Expr.term, Term.questions]
    · rfl
    · rintro _ _ ⟨⟩

theorem questions_fixed (f : Option Field) (sig : Signature) :
    (fieldTerm? f).questions = [] ∧ sig.term.questions = [] := by
  constructor
  · rcases f with _ | ⟨info, names, ty, variadic, tag⟩
    · rfl
    · rw [fieldTerm?, Field.term, Term.questions]
  · obtain ⟨params, results⟩ := sig
    rw [Signature.term, Term.questions]

theorem FuncDecl.questions_none (info : Info) (recv : Option Field) (name : Ident) (sig : Signature) :
    (FuncDecl.mk info recv name sig none).term.questions = [] := by
  rw [FuncDecl.term, Term.questions]
  · simpa [questionsOf, Ident.term, blockTerm?, Term.absent, Term.questions] using questions_fixed recv sig
  · simp [blockTerm?, Term.absent]

theorem FuncDecl.questions_some (info : Info) (recv : Option Field) (name : Ident) (sig : Signature) (b : Block) :
    (FuncDecl.mk info recv name sig (some b)).term.questions =
      [.enterFunc sig.term] ++ (b.term.questions ++ [.exitFunc]) := by
  obtain ⟨_, _⟩ := b
  rw [FuncDecl.term, blockTerm?, Block.term, Term.questions]
  simp

theorem Visitor.Watches.traverses {v : Visitor σ ε} (h : v.Watches) : Traverses v.noting
    (fun s x x' s' => x' = x ∧ Notes x.inner s s')
    (fun s ts ts' s' => ts' = ts ∧ Notes (questionsOf ts) s s')
    (fun s ss ss' s' => ss' = ss ∧ Notes (questionsIn ss) s s') where
  nil := ⟨rfl, .refl⟩
  append := by
    rintro ts ts' us us' s s₁ s₂ ⟨rfl, h⟩ ⟨rfl, h'⟩
    exact ⟨rfl, questionsOf_append ts' us' ▸ h.trans h'⟩
  fixed := ⟨rfl, .refl⟩
  expr := by
    rintro x x' listed slot region action s s₁ s' - - - ⟨rfl, inner⟩ answer
    obtain rfl := h.exitExpr (noting_ok (v.exitExpr _ _) answer).1
    constructor
    · cases listed <;> rfl
    · rw [questionsOf_singleton, Expr.questions_term]
      exact inner.trans (.step (v.exitExpr _ _) answer)
  block := by
    rintro info ss ss' s s₁ s₂ s₃ enter ⟨same, inner⟩ exit
    obtain rfl := statements_inj _ same
    refine ⟨rfl, ?_⟩
    rw [questionsOf_singleton]
    exact (Notes.step (v.enterBlock _) enter).trans (inner.trans (.step (v.exitBlock _) exit))
  done := ⟨rfl, .refl⟩
  andThen := by
    rintro ts ts' us us' s s₁ s₂ ⟨rfl, h⟩ ⟨rfl, h'⟩
    exact ⟨rfl, questionsIn_append ts' us' ▸ h.trans h'⟩
  removed answer := absurd rfl (h.enterStmt (noting_ok (v.enterStmt _) answer).1)
  skipped answer := ⟨rfl, _, (noting_ok (v.enterStmt _) answer).2, fun none => absurd (List.mem_singleton.mpr rfl) none⟩
  stmt := by
    rintro t t' action s s₁ s₂ s₃ - kind info enter ⟨parts, inner⟩ answer
    obtain rfl := Stmt.eq_of_parts t' kind info parts
    obtain rfl := h.exitStmt (noting_ok (v.exitStmt _) answer).1
    refine ⟨rfl, ?_⟩
    rw [questionsIn_singleton]
    exact (Notes.step (v.enterStmt _) enter).trans (inner.trans (.step (v.exitStmt _) answer))
  exprStmt := by
    rintro info x x' action act s s₁ s₂ s₃ s₄ - - enter ⟨rfl, inner⟩ answer exit
    obtain rfl := h.exitExpr (noting_ok (v.exitExpr _ _) answer).1
    obtain rfl := h.exitStmt (noting_ok (v.exitStmt _) exit).1
    refine ⟨rfl, ?_⟩
    have parts : questionsOf (Stmt.expr info x').parts = x'.inner ++ [.exitExpr (x'.term false)] :=
      (questionsOf_singleton _).trans (x'.questions_term false)
    rw [questionsIn_singleton, parts]
    exact (Notes.step (v.enterStmt _) enter).trans
      ((inner.trans (.step (v.exitExpr _ _) answer)).trans (.step (v.exitStmt _) exit))
  group := by
    rintro kind info parts parts' s s' notFunc ⟨rfl, inner⟩
    refine ⟨rfl, ?_⟩
    rw [questionsOf_singleton, Term.questions]
    · exact inner
    · exact fun _ _ _ _ _ eq => absurd eq notFunc
  parts := by
    rintro x x' s s' notLit kind info ⟨same, inner⟩
    obtain rfl := Expr.eq_of_parts x' kind info same
    refine ⟨rfl, ?_⟩
    rw [Expr.inner]
    · exact inner
    · rintro _ _ _ rfl
      exact notLit rfl
  literal := by
    rintro info sig b b' s s₁ s₂ s₃ enter ⟨same, inner⟩ exit
    obtain rfl := Block.term_inj b' (List.cons.inj same).1
    refine ⟨rfl, ?_⟩
    exact (Notes.step (v.enterFunc _) enter).trans (inner.trans (.step v.exitFunc exit))
  func := by
    rintro ⟨info, recv, name, sig, _⟩ b b' s s₁ s₂ s₃ rfl enter ⟨same, inner⟩ exit
    obtain rfl := Block.term_inj b' (List.cons.inj same).1
    refine ⟨rfl, ?_⟩
    rw [questionsOf_singleton, FuncDecl.questions_some, ← questionsOf_singleton]
    exact (Notes.step (v.enterFunc _) enter).trans (inner.trans (.step v.exitFunc exit))
  bodiless := by
    rintro ⟨info, recv, name, sig, _⟩ s rfl
    refine ⟨rfl, ?_⟩
    rw [questionsOf_singleton, FuncDecl.questions_none]
    exact .refl

/-- A walk that succeeds while it notes its questions. -/
theorem Visitor.Watches.inFile {v : Visitor σ ε} (h : v.Watches) {f f' : File} {s s' : σ} {noted : List Question}
    (run : Succeeds (walkFile v.noting f) (s, []) f' (s', noted)) :
    f' = f ∧ (.skipped ∉ noted → noted = f.term.questions) := by
  obtain ⟨same, all, eq, complete⟩ := h.traverses.inFile f run
  obtain rfl : noted = all := eq
  rw [questionsOf_singleton] at complete
  exact ⟨File.term_inj (List.cons.inj same).1, complete⟩

/-- A visitor that keeps everything gets its file back, whether it fails or not.
While it does not fail and skips nothing, it is asked what the tree lists. -/
theorem walkFile_watched (v : Visitor σ ε) (watches : v.Watches) (f : File) :
    (∀ w, (walkFile v f w).1 = f) ∧
    ∀ s, let w := (walkFile v f ⟨s, none⟩).2
      let w' := (walkFile v.noting f ⟨(s, []), none⟩).2
      w'.state.1 = w.state ∧ w'.failure = w.failure ∧
        (w.failure = none → .skipped ∉ w'.state.2 → w'.state.2 = f.term.questions) := by
  constructor
  · intro w
    obtain ⟨noted, run⟩ := (relates_noting v.recording).file f ⟨w, none⟩ []
    rw [succeeds_recording v f w] at run
    exact (watches.recording.inFile run).1
  · intro s
    obtain ⟨noted, run⟩ := (relates_noting v).file f ⟨s, none⟩ []
    simp only [run]
    refine ⟨trivial, trivial, fun ok => ?_⟩
    rw [ok] at run
    exact (watches.inFile run).2

/-- Fails at question `n` about an expression. -/
def failingAt (n : Nat) : Visitor Nat Unit where
  exitExpr _ _ asked := (if asked = n then .error () else .ok .keep, asked + 1)

theorem watches_failingAt (n : Nat) : (failingAt n).Watches where
  enterStmt := by
    rintro t s enter s' ⟨⟩
    exact nofun
  exitStmt := by
    rintro t s action s' ⟨⟩
    rfl
  exitExpr := by
    rintro x position s action s' answer
    simp only [failingAt] at answer
    split at answer <;> cases answer
    rfl

/-- A function that calls another with the result of a third. -/
def nestedCall : File :=
  ⟨⟨default, "p"⟩, [], [.func ⟨default, none, ⟨default, "f"⟩, ⟨[], []⟩, some ⟨default, [.expr default
    (.call default (.ident default "g") [.call default (.ident default "h") [] false] false)]⟩⟩], {}⟩

theorem walkFile_watched_nestedCall :
    ((walkFile (failingAt 2) nestedCall ⟨0, none⟩).1 = nestedCall ∧
      (walkFile (failingAt 2) nestedCall ⟨0, none⟩).2.failure = some ()) ∧
    (walkFile (failingAt 9).noting nestedCall ⟨(0, []), none⟩).2.state.2 = nestedCall.term.questions := by
  have unskipped : (walkFile (failingAt 9).noting nestedCall ⟨(0, []), none⟩).2.state.2.all (!· matches .skipped) = true := by
    decide +kernel
  exact ⟨⟨(walkFile_watched _ (watches_failingAt 2) _).1 _, rfl⟩, ((walkFile_watched _ (watches_failingAt 9) _).2 0).2.2 rfl
    fun mem => nomatch List.all_eq_true.mp unskipped _ mem⟩

end CheckHandle
