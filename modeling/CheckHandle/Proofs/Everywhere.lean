import CheckHandle.Proofs.Follow

/-!
# The nodes that a walk comes to

Something holds of every node of a term that a walk reports: of its expressions
and of the statements in its blocks, each with what is inside it.
-/

namespace CheckHandle

open List

variable {P : Info → Prop}

mutual

/-- Every expression of the term and every statement in its blocks is such. -/
def Term.Everywhere (P : Info → Prop) : Term → Prop
  | .expr _ _ info parts => P info ∧ EverywhereTerms P parts
  | .group _ _ parts => EverywhereTerms P parts
  | .fixed .. => True
  | .block _ ss => EverywhereIn P ss

def EverywhereTerms (P : Info → Prop) : List Term → Prop
  | [] => True
  | t :: ts => t.Everywhere P ∧ EverywhereTerms P ts

def EverywhereIn (P : Info → Prop) : List Statement → Prop
  | [] => True
  | .mk _ info parts :: ss => P info ∧ EverywhereTerms P parts ∧ EverywhereIn P ss

end

section Parts

variable (listed : Bool) (kind : Kind) (info : Info) (info? : Option Info) (parts ts us : List Term)
  (ss ss' : List Statement)

@[simp] theorem everywhere_nil : EverywhereTerms P [] ↔ True := by rw [EverywhereTerms]

@[simp] theorem everywhere_cons (t : Term) :
    EverywhereTerms P (t :: ts) ↔ t.Everywhere P ∧ EverywhereTerms P ts := by rw [EverywhereTerms]

theorem everywhere_expr : (Term.expr listed kind info parts).Everywhere P ↔ P info ∧ EverywhereTerms P parts := by
  rw [Term.Everywhere]

@[simp] theorem everywhere_group : (Term.group kind info? parts).Everywhere P ↔ EverywhereTerms P parts := by
  rw [Term.Everywhere]

@[simp] theorem everywhere_fixed : (Term.fixed kind info? parts).Everywhere P ↔ True := by
  rw [Term.Everywhere]

@[simp] theorem everywhere_block : (Term.block info ss).Everywhere P ↔ EverywhereIn P ss := by
  rw [Term.Everywhere]

@[simp] theorem everywhereIn_nil : EverywhereIn P [] ↔ True := by rw [EverywhereIn]

@[simp] theorem everywhereIn_cons : EverywhereIn P (.mk kind info parts :: ss) ↔
    P info ∧ EverywhereTerms P parts ∧ EverywhereIn P ss := by
  rw [EverywhereIn]

@[simp] theorem everywhere_append : EverywhereTerms P (ts ++ us) ↔ EverywhereTerms P ts ∧ EverywhereTerms P us := by
  induction ts with
  | nil => simp
  | cons t ts ih => simp [ih, and_assoc]

@[simp] theorem everywhereIn_append : EverywhereIn P (ss ++ ss') ↔ EverywhereIn P ss ∧ EverywhereIn P ss' := by
  induction ss with
  | nil => simp
  | cons s ss ih =>
    obtain ⟨kind, info, parts⟩ := s
    simp [ih, and_assoc]

end Parts

/-! ## Syntax -/

/-- What is asked of an expression and all inside it. -/
def Expr.Everywhere (P : Info → Prop) (x : Expr) : Prop := P x.info ∧ EverywhereTerms P x.parts

/-- What is asked of the parts of a statement. -/
def Stmt.Everywhere (P : Info → Prop) (s : Stmt) : Prop := EverywhereTerms P s.parts

section Syntax

variable (listed : Bool)

@[simp] theorem everywhere_exprTerm (x : Expr) :
    (Term.expr listed x.kind x.info x.parts).Everywhere P ↔ x.Everywhere P :=
  everywhere_expr ..

@[simp] theorem everywhere_term (x : Expr) : (x.term listed).Everywhere P ↔ x.Everywhere P :=
  everywhere_exprTerm listed x

@[simp] theorem everywhere_exprTerms (xs : List Expr) :
    EverywhereTerms P (exprTerms listed xs) ↔ ∀ x ∈ xs, x.Everywhere P := by
  induction xs with
  | nil => simp [exprTerms]
  | cons x xs ih => simp [exprTerms, ih]

@[simp] theorem everywhere_statements (ss : List Stmt) :
    EverywhereIn P (statements ss) ↔ ∀ s ∈ ss, P s.info ∧ s.Everywhere P := by
  induction ss with
  | nil => simp [statements]
  | cons s ss ih => simp [statements, ih, Stmt.Everywhere, and_assoc]

@[simp] theorem everywhere_statement (s : Stmt) : EverywhereIn P [s.statement] ↔ P s.info ∧ s.Everywhere P := by
  simp [Stmt.statement, Stmt.Everywhere]

end Syntax

/-! ## Nodes by their identities -/

section Identities

variable {Q R : Info → Prop}

mutual

/-- What holds of nodes with the identities of a term holds of its nodes. -/
theorem Term.everywhere_of_count : ∀ {t : Term}, (∀ info, 0 < t.count info.id → Q info) → t.Everywhere Q
  | .expr _ _ info _, h => by
    refine (everywhere_expr ..).mpr ⟨h info ?_, everywhereTerms_of_count fun i hi => h i ?_⟩
    · simp only [Term.count, Info.count_self]
      omega
    · simp only [Term.count]
      omega
  | .group .., h => by
    refine (everywhere_group ..).mpr (everywhereTerms_of_count fun i hi => h i ?_)
    simp only [Term.count]
    omega
  | .fixed .., _ => (everywhere_fixed ..).mpr trivial
  | .block .., h => by
    refine (everywhere_block ..).mpr (everywhereIn_of_count fun i hi => h i ?_)
    simp only [Term.count]
    omega

theorem everywhereTerms_of_count :
    ∀ {ts : List Term}, (∀ info, 0 < countAll info.id ts → Q info) → EverywhereTerms Q ts
  | [], _ => everywhere_nil.mpr trivial
  | _ :: _, h => by
    refine (everywhere_cons ..).mpr
      ⟨Term.everywhere_of_count fun i hi => h i ?_, everywhereTerms_of_count fun i hi => h i ?_⟩
    · simp only [countAll]
      omega
    · simp only [countAll]
      omega

theorem everywhereIn_of_count :
    ∀ {ss : List Statement}, (∀ info, 0 < countIn info.id ss → Q info) → EverywhereIn Q ss
  | [], _ => everywhereIn_nil.mpr trivial
  | .mk _ info _ :: _, h => by
    refine (everywhereIn_cons ..).mpr ⟨h info ?_, everywhereTerms_of_count fun i hi => h i ?_,
      everywhereIn_of_count fun i hi => h i ?_⟩
    · simp only [countIn, Info.count_self]
      omega
    · simp only [countIn]
      omega
    · simp only [countIn]
      omega

end

mutual

/-- What follows from two facts about each node. -/
theorem Term.Everywhere.combine (both : ∀ info, P info → Q info → R info) :
    ∀ {t : Term}, t.Everywhere P → t.Everywhere Q → t.Everywhere R
  | .expr _ _ info _, h, h' => by
    rw [everywhere_expr] at h h' ⊢
    exact ⟨both info h.1 h'.1, EverywhereTerms.combine both h.2 h'.2⟩
  | .group .., h, h' => by
    rw [everywhere_group] at h h' ⊢
    exact EverywhereTerms.combine both h h'
  | .fixed .., _, _ => (everywhere_fixed ..).mpr trivial
  | .block .., h, h' => by
    rw [everywhere_block] at h h' ⊢
    exact EverywhereIn.combine both h h'

theorem EverywhereTerms.combine (both : ∀ info, P info → Q info → R info) :
    ∀ {ts : List Term}, EverywhereTerms P ts → EverywhereTerms Q ts → EverywhereTerms R ts
  | [], _, _ => everywhere_nil.mpr trivial
  | _ :: _, h, h' => by
    rw [everywhere_cons] at h h' ⊢
    exact ⟨Term.Everywhere.combine both h.1 h'.1, EverywhereTerms.combine both h.2 h'.2⟩

theorem EverywhereIn.combine (both : ∀ info, P info → Q info → R info) :
    ∀ {ss : List Statement}, EverywhereIn P ss → EverywhereIn Q ss → EverywhereIn R ss
  | [], _, _ => everywhereIn_nil.mpr trivial
  | .mk _ info _ :: _, h, h' => by
    rw [everywhereIn_cons] at h h' ⊢
    exact ⟨both info h.1 h'.1, EverywhereTerms.combine both h.2.1 h'.2.1, EverywhereIn.combine both h.2.2 h'.2.2⟩

end

end Identities

/-! ## Walks over such nodes -/

section Walks

variable {σ ε α : Type}

/-- The answer and the state after it are such; or the failure is. -/
def Answered (J : σ → Prop) (E : ε → Prop) (Q : α → Prop) : Except ε α × σ → Prop
  | (.ok a, s) => Q a ∧ J s
  | (.error e, _) => E e

/-- The nodes that come to stand in the place of an expression. -/
def ExprAction.given : ExprAction → List Expr
  | .keep => []
  | .replace y => [y]
  | .splice ys => ys

/-- Asked about such nodes in such states, the visitor comes to such states, puts
such nodes into the tree, and fails with such failures only. -/
structure Respects (v : Visitor σ ε) (P : Info → Prop) (J : σ → Prop) (E : ε → Prop) : Prop where
  enterFunc : ∀ sig {s}, J s → Answered J E (fun _ => True) (v.enterFunc sig s)
  exitFunc : ∀ {s}, J s → Answered J E (fun _ => True) (v.exitFunc s)
  enterBlock : ∀ b {s}, J s → Answered J E (fun _ => True) (v.enterBlock b s)
  exitBlock : ∀ b {s}, J s → Answered J E (fun _ => True) (v.exitBlock b s)
  enterStmt : ∀ t {s}, P t.info → J s → Answered J E (fun _ => True) (v.enterStmt t s)
  exitStmt : ∀ t {s}, J s → Answered J E (fun action => ∀ u ∈ action.before, P u.info ∧ u.Everywhere P) (v.exitStmt t s)
  exitExpr : ∀ x position {s}, x.Everywhere P → J s →
    Answered J E (fun action => ∀ y ∈ action.given, y.Everywhere P) (v.exitExpr x position s)

/-- The walk is in such a state, or has failed with such a failure. -/
def Walk.Holds (J : σ → Prop) (E : ε → Prop) (w : Walk σ ε) : Prop :=
  match w.failure with
  | none => J w.state
  | some e => E e

variable {v : Visitor σ ε} {J : σ → Prop} {E : ε → Prop} {Q : α → Prop}

theorem recorded_holds {idle a : α} {step : VisitM σ ε α} {w w' : Walk σ ε}
    (h : recorded idle step w = (.ok a, w')) (hw : w.Holds J E) (hidle : Q idle)
    (hstep : J w.state → Answered J E Q (step w.state)) : Q a ∧ w'.Holds J E := by
  obtain ⟨s, failure⟩ := w
  rcases recorded_ok h with ⟨-, rfl, rfl⟩ | ⟨s', rfl, hok, rfl⟩ | ⟨e, s', rfl, herror, rfl, rfl⟩
  · exact ⟨hidle, hw⟩
  · have answered := hstep hw
    rw [hok] at answered
    exact answered
  · have answered := hstep hw
    rw [herror] at answered
    exact ⟨hidle, answered⟩

theorem everywhere_visited {x : Expr} {action : ExprAction} (hx : x.Everywhere P)
    (given : ∀ y ∈ action.given, y.Everywhere P) (listed : Bool) :
    ∀ y ∈ (action.visited x).inPlace listed, y.Everywhere P := by
  intro y hy
  cases action with
  | keep =>
    cases listed <;> obtain rfl := mem_singleton.mp hy <;> exact hx
  | replace z =>
    cases listed <;> obtain rfl := mem_singleton.mp hy <;> exact given _ (mem_singleton.mpr rfl)
  | splice zs =>
    cases listed with
    | true => exact given y hy
    | false =>
      obtain rfl := mem_singleton.mp hy
      unfold ExprAction.visited Visited.one
      dsimp only
      split
      · rename_i z hz
        cases hz
        exact given z (mem_singleton.mpr rfl)
      · exact hx

theorem everywhere_one {x : Expr} {action : ExprAction} (hx : x.Everywhere P)
    (given : ∀ y ∈ action.given, y.Everywhere P) : (action.visited x).one.Everywhere P :=
  everywhere_visited hx given false _ (mem_singleton.mpr rfl)

theorem everywhere_result {t : Stmt} {action : StmtAction} (ht : P t.info ∧ t.Everywhere P)
    (before : ∀ u ∈ action.before, P u.info ∧ u.Everywhere P) :
    EverywhereIn P (statements (action.result t)) := by
  refine (everywhere_statements _).mpr fun u hu => ?_
  rcases mem_append.mp hu with hu | hu
  · exact before u hu
  · split at hu
    · cases hu
    · obtain rfl := mem_singleton.mp hu
      exact ht

/-- A walk whose visitor respects the nodes does so as a whole. -/
theorem Respects.follows (h : Respects v P J E) : Follows v.recording
    (fun w ts ts' w' => EverywhereTerms P ts → w.Holds J E → EverywhereTerms P ts' ∧ w'.Holds J E)
    (fun w ss ss' w' => EverywhereIn P ss → w.Holds J E → EverywhereIn P ss' ∧ w'.Holds J E) where
  nil := fun hts hw => ⟨hts, hw⟩
  append first second hts hw := by
    rw [everywhere_append] at hts
    obtain ⟨hts', hw1⟩ := first hts.1 hw
    obtain ⟨hus', hw2⟩ := second hts.2 hw1
    exact ⟨(everywhere_append _ _).mpr ⟨hts', hus'⟩, hw2⟩
  fixed := fun hts hw => ⟨hts, hw⟩
  group inner hts hw := by
    simp only [everywhere_cons, everywhere_group, everywhere_nil, and_true] at hts ⊢
    exact inner hts hw
  expr hkind hinfo _ parts hexit hts hw := by
    simp only [everywhere_cons, everywhere_term, everywhere_nil, and_true] at hts
    obtain ⟨hparts, hw1⟩ := parts hts.2 hw
    have hx := And.intro (hinfo ▸ hts.1) hparts
    obtain ⟨given, hw'⟩ := recorded_holds hexit hw1 nofun (h.exitExpr _ _ hx)
    exact ⟨(everywhere_exprTerms _ _).mpr (everywhere_visited hx given _), hw'⟩
  func henter body hexit hts hw := by
    obtain ⟨-, hw1⟩ := recorded_holds henter hw trivial (h.enterFunc _)
    obtain ⟨hts', hw2⟩ := body hts hw1
    exact ⟨hts', (recorded_holds hexit hw2 trivial h.exitFunc).2⟩
  block henter body hexit hts hw := by
    simp only [everywhere_cons, everywhere_block, everywhere_nil, and_true] at hts ⊢
    obtain ⟨-, hw1⟩ := recorded_holds henter hw trivial (h.enterBlock _)
    obtain ⟨hss', hw2⟩ := body hts hw1
    exact ⟨hss', (recorded_holds hexit hw2 trivial (h.exitBlock _)).2⟩
  done := fun hss hw => ⟨hss, hw⟩
  andThen first second hss hw := by
    rw [everywhereIn_append] at hss
    obtain ⟨hts', hw1⟩ := first hss.1 hw
    obtain ⟨hus', hw2⟩ := second hss.2 hw1
    exact ⟨(everywhereIn_append _ _).mpr ⟨hts', hus'⟩, hw2⟩
  removed henter hss hw := by
    have ht := ((everywhere_statement _).mp hss).1
    exact ⟨everywhereIn_nil.mpr trivial, (recorded_holds henter hw trivial (h.enterStmt _ ht)).2⟩
  skipped henter hss hw := by
    have ht := ((everywhere_statement _).mp hss).1
    exact ⟨hss, (recorded_holds henter hw trivial (h.enterStmt _ ht)).2⟩
  stmt _ hkind hinfo henter parts hexit hss hw := by
    obtain ⟨ht, inside⟩ := (everywhere_statement _).mp hss
    obtain ⟨-, hw1⟩ := recorded_holds henter hw trivial (h.enterStmt _ ht)
    obtain ⟨hparts, hw2⟩ := parts inside hw1
    obtain ⟨before, hw'⟩ := recorded_holds hexit hw2 nofun (h.exitStmt _)
    exact ⟨everywhere_result ⟨hinfo ▸ ht, hparts⟩ before, hw'⟩
  exprStmt hkind hinfo henter parts hexit hleave hss hw := by
    obtain ⟨ht, inside⟩ := (everywhere_statement _).mp hss
    simp only [Stmt.Everywhere, Stmt.parts, everywhere_cons, everywhere_nil, and_true] at inside
    obtain ⟨-, hw1⟩ := recorded_holds henter hw trivial (h.enterStmt _ ht)
    obtain ⟨hparts, hw2⟩ := parts inside.2 hw1
    have hx := And.intro (hinfo ▸ inside.1) hparts
    obtain ⟨given, hw3⟩ := recorded_holds hexit hw2 nofun (h.exitExpr _ _ hx)
    obtain ⟨before, hw'⟩ := recorded_holds hleave hw3 nofun (h.exitStmt _)
    refine ⟨everywhere_result ⟨ht, ?_⟩ before, hw'⟩
    simpa [Stmt.Everywhere, Stmt.parts] using everywhere_one hx given

/-- **What a visitor respects, its walk over a file does.** -/
theorem Respects.file (h : Respects v P J E) {f : File} (hf : f.term.Everywhere P) {s : σ} (hs : J s) :
    (walkFile v f ⟨s, none⟩).1.term.Everywhere P ∧ (walkFile v f ⟨s, none⟩).2.Holds J E := by
  have walked := h.follows.inFile f (succeeds_recording v f ⟨s, none⟩)
  simp only [everywhere_cons, everywhere_nil, and_true] at walked
  exact walked hf hs

end Walks

end CheckHandle
