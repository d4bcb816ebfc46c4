import Mathlib
import CheckHandle.Syntax.Visitor

/-!
# Walks that succeed

A walk goes on idly after a failure, so what it did is read off the walks that
end without one. `Succeeds` is such a walk. It splits at every step, since a
failure outlasts whatever follows it (`Persists`).

`Relates` packages the induction over the whole syntax: a relation between parts
of two walks that holds of each question to the visitors and passes to sequences
holds of every walk. `Closed` is the case of one walk.
-/

namespace CheckHandle

open List

variable {σ ε σ' ε' α β : Type}

variable {a : α} {s s' : σ}

/-! ## Steps of a visitor -/

theorem visit_pure {b : α} : (pure a : VisitM σ ε α) s = (.ok b, s') ↔ b = a ∧ s' = s := by
  constructor
  · intro h
    cases h
    exact ⟨rfl, rfl⟩
  · rintro ⟨rfl, rfl⟩
    rfl

theorem visit_bind {m : VisitM σ ε α} {f : α → VisitM σ ε β} {b : β} :
    (m >>= f) s = (.ok b, s') ↔ ∃ a s1, m s = (.ok a, s1) ∧ f a s1 = (.ok b, s') := by
  have step : (m >>= f) s = ExceptT.bindCont f (m s).1 (m s).2 := rfl
  rw [step]
  rcases m s with ⟨e | a, s1⟩
  · constructor
    · intro h
      cases h
    · rintro ⟨_, _, h, _⟩
      cases h
  · constructor
    · intro h
      exact ⟨a, s1, rfl, h⟩
    · rintro ⟨_, _, h, hf⟩
      cases h
      exact hf

theorem visit_bind_error {m : VisitM σ ε α} {f : α → VisitM σ ε β} {e : ε} : (m >>= f) s = (.error e, s') ↔
      m s = (.error e, s') ∨ ∃ a s1, m s = (.ok a, s1) ∧ f a s1 = (.error e, s') := by
  have step : (m >>= f) s = ExceptT.bindCont f (m s).1 (m s).2 := rfl
  rw [step]
  rcases m s with ⟨e1 | a, s1⟩
  · constructor
    · intro h
      cases h
      exact .inl rfl
    · rintro (h | ⟨_, _, h, _⟩)
      · cases h
        rfl
      · cases h
  · constructor
    · intro h
      exact .inr ⟨a, s1, rfl, h⟩
    · rintro (h | ⟨_, _, h, hf⟩)
      · cases h
      · cases h
        exact hf

theorem visit_get {a : σ} : (get : VisitM σ ε σ) s = (.ok a, s') ↔ a = s ∧ s' = s := by
  constructor
  · intro h
    cases h
    exact ⟨rfl, rfl⟩
  · rintro ⟨rfl, rfl⟩
    rfl

theorem visit_set {t : σ} {u : PUnit} : (set t : VisitM σ ε PUnit) s = (.ok u, s') ↔ s' = t := by
  constructor
  · intro h
    cases h
    rfl
  · rintro rfl
    rfl

theorem visit_modify {f : σ → σ} {u : PUnit} : (modify f : VisitM σ ε PUnit) s = (.ok u, s') ↔ s' = f s := by
  constructor
  · intro h
    cases h
    rfl
  · rintro rfl
    rfl

theorem visit_throw {e : ε} : ¬ (throw e : VisitM σ ε α) s = (.ok a, s') := by
  intro h
  cases h

/-! ## Success -/

/-- The part of a walk starts and ends without a failure. -/
def Succeeds (m : WalkM σ ε α) (s : σ) (a : α) (s' : σ) : Prop := m ⟨s, none⟩ = (a, ⟨s', none⟩)

/-- A failure outlasts the part. -/
class Persists (m : WalkM σ ε α) : Prop where
  failure_isSome : ∀ w : Walk σ ε, w.failure.isSome → (m w).2.failure.isSome

theorem bind_apply (m : WalkM σ ε α) (f : α → WalkM σ ε β) (w : Walk σ ε) : (m >>= f) w = f (m w).1 (m w).2 := rfl

instance (a : α) : Persists (pure a : WalkM σ ε α) := ⟨fun _ h => h⟩

instance persists_bind (m : WalkM σ ε α) (f : α → WalkM σ ε β) [hm : Persists m]
    [hf : ∀ a, Persists (f a)] : Persists (m >>= f) where
  failure_isSome w h := by
    rw [bind_apply]
    exact (hf _).failure_isSome _ (hm.failure_isSome w h)

instance (idle : α) (step : VisitM σ ε α) : Persists (ask idle step) where
  failure_isSome w h := by
    obtain ⟨e, he⟩ := Option.isSome_iff_exists.mp h
    simp [ask, he]

theorem succeeds_pure {b : α} : Succeeds (pure a : WalkM σ ε α) s b s' ↔ b = a ∧ s' = s := by
  constructor
  · intro h
    cases h
    exact ⟨rfl, rfl⟩
  · rintro ⟨rfl, rfl⟩
    rfl

theorem succeeds_bind {m : WalkM σ ε α} {f : α → WalkM σ ε β} [hf : ∀ a, Persists (f a)] {b : β} :
    Succeeds (m >>= f) s b s' ↔ ∃ a s1, Succeeds m s a s1 ∧ Succeeds (f a) s1 b s' := by
  unfold Succeeds
  rw [bind_apply]
  constructor
  · intro h
    rcases hm : m ⟨s, none⟩ with ⟨a, s1, failure⟩
    rw [hm] at h
    cases failure with
    | none => exact ⟨a, s1, rfl, h⟩
    | some e =>
      have failed := (hf a).failure_isSome ⟨s1, some e⟩ rfl
      rw [h] at failed
      cases failed
  · rintro ⟨a, s1, hm, hb⟩
    rw [hm]
    exact hb

theorem succeeds_ask {idle : α} {step : VisitM σ ε α} : Succeeds (ask idle step) s a s' ↔ step s = (.ok a, s') := by
  rcases h : step s with ⟨e | b, s1⟩
  · simp only [Succeeds, ask, h]
    constructor <;> (intro h'; cases h')
  · simp only [Succeeds, ask, h]
    constructor <;> (intro h'; cases h'; rfl)

/-! ## Induction over walks -/

/-- A relation between parts of two walks that every pair of questions to the
visitors has, and that passes to sequences. -/
structure Relates (v : Visitor σ ε) (v' : Visitor σ' ε')
    (P : {α : Type} → WalkM σ ε α → WalkM σ' ε' α → Prop) : Prop where
  pure : ∀ {α : Type} (a : α), P (pure a) (pure a)
  bind : ∀ {α β : Type} {m : WalkM σ ε α} {m' : WalkM σ' ε' α} {f : α → WalkM σ ε β}
    {f' : α → WalkM σ' ε' β}, P m m' → (∀ a, P (f a) (f' a)) → P (m >>= f) (m' >>= f')
  enterFunc : ∀ sig, P (ask () (v.enterFunc sig)) (ask () (v'.enterFunc sig))
  exitFunc : P (ask () v.exitFunc) (ask () v'.exitFunc)
  enterBlock : ∀ b, P (ask () (v.enterBlock b)) (ask () (v'.enterBlock b))
  exitBlock : ∀ b, P (ask () (v.exitBlock b)) (ask () (v'.exitBlock b))
  enterStmt : ∀ s, P (ask .walk (v.enterStmt s)) (ask .walk (v'.enterStmt s))
  exitStmt : ∀ s, P (ask {} (v.exitStmt s)) (ask {} (v'.exitStmt s))
  exitExpr : ∀ x position, P (ask .keep (v.exitExpr x position)) (ask .keep (v'.exitExpr x position))

namespace Relates

variable {v : Visitor σ ε} {v' : Visitor σ' ε'}
  {P : {α : Type} → WalkM σ ε α → WalkM σ' ε' α → Prop} (h : Relates v v' P)

include h

theorem leave (region : Region) (slot : Slot) (x : Expr) :
    P (v.leave region slot x) (v'.leave region slot x) := by
  unfold Visitor.leave
  refine h.bind (h.exitExpr x _) fun action => ?_
  cases action <;> exact h.pure _

mutual

theorem expr (region : Region) (slot : Slot) :
    ∀ x : Expr, P (walkExpr v region slot x) (walkExpr v' region slot x)
  | .ident .. | .lit .. | .type .. => by
    rw [walkExpr, walkExpr]
    exact h.leave ..
  | .composite _ _ elts => by
    rw [walkExpr, walkExpr]
    exact h.bind (each region elts) fun _ => h.leave ..
  | .funcLit _ sig body => by
    rw [walkExpr, walkExpr]
    exact h.bind (h.enterFunc sig) fun _ => h.bind (block body) fun _ =>
      h.bind h.exitFunc fun _ => h.leave ..
  | .paren _ x | .selector _ x _ | .typeAssert _ x _ | .unary _ _ x => by
    rw [walkExpr, walkExpr]
    exact h.bind (expr region .single x) fun _ => h.leave ..
  | .index _ x y | .binary _ _ x y | .keyValue _ x y => by
    rw [walkExpr, walkExpr]
    exact h.bind (expr region .single x) fun _ =>
      h.bind (expr region .single y) fun _ => h.leave ..
  | .slice _ x lo hi max => by
    rw [walkExpr, walkExpr]
    exact h.bind (expr region .single x) fun _ => h.bind (expr? region lo) fun _ =>
      h.bind (expr? region hi) fun _ => h.bind (expr? region max) fun _ => h.leave ..
  | .call _ fn args _ => by
    rw [walkExpr, walkExpr]
    exact h.bind (expr region .single fn) fun _ =>
      h.bind (list region _ args) fun _ => h.leave ..

theorem expr? (region : Region) :
    ∀ x : Option Expr, P (walkExpr? v region x) (walkExpr? v' region x)
  | none => by
    rw [walkExpr?, walkExpr?]
    exact h.pure _
  | some x => by
    rw [walkExpr?, walkExpr?]
    exact h.bind (expr region .single x) fun _ => h.pure _

theorem each (region : Region) : ∀ xs : List Expr, P (walkEach v region xs) (walkEach v' region xs)
  | [] => by
    rw [walkEach, walkEach]
    exact h.pure _
  | x :: xs => by
    rw [walkEach, walkEach]
    exact h.bind (expr region .single x) fun _ => h.bind (each region xs) fun _ => h.pure _

theorem list (region : Region) (slot : Slot) :
    ∀ xs : List Expr, P (walkList v region slot xs) (walkList v' region slot xs)
  | [] => by
    rw [walkList, walkList]
    exact h.pure _
  | x :: xs => by
    rw [walkList, walkList]
    exact h.bind (expr region slot x) fun _ =>
      h.bind (list region slot xs) fun _ => h.pure _

theorem block : ∀ b : Block, P (walkBlock v b) (walkBlock v' b)
  | ⟨_, ss⟩ => by
    rw [walkBlock, walkBlock]
    exact h.bind (h.enterBlock _) fun _ => h.bind (stmts ss) fun _ =>
      h.bind (h.exitBlock _) fun _ => h.pure _

theorem stmts : ∀ ss : List Stmt, P (walkStmts v ss) (walkStmts v' ss)
  | [] => by
    rw [walkStmts, walkStmts]
    exact h.pure _
  | s :: ss => by
    rw [walkStmts, walkStmts]
    refine h.bind (h.enterStmt s) fun enter => ?_
    cases enter with
    | remove => exact stmts ss
    | skip => exact h.bind (stmts ss) fun _ => h.pure _
    | walk =>
      exact h.bind (stmt .body .owned s) fun _ => h.bind (h.exitStmt _) fun _ =>
        h.bind (stmts ss) fun _ => h.pure _

theorem stmt (region : Region) (place : Place) :
    ∀ s : Stmt, P (walkStmt v region place s) (walkStmt v' region place s)
  | .expr _ x => by
    rw [walkStmt, walkStmt]
    exact h.bind (expr region _ x) fun _ => h.pure _
  | .incDec _ x _ | .go _ x | .defer _ x => by
    rw [walkStmt, walkStmt]
    exact h.bind (expr _ .single x) fun _ => h.pure _
  | .assign _ lhs _ rhs => by
    rw [walkStmt, walkStmt]
    exact h.bind (each region lhs) fun _ => h.bind (list region _ rhs) fun _ => h.pure _
  | .decl _ d => by
    rw [walkStmt, walkStmt]
    exact h.bind (decl region d) fun _ => h.pure _
  | .ret _ results => by
    rw [walkStmt, walkStmt]
    exact h.bind (list region _ results) fun _ => h.pure _
  | .cond _ init test body other => by
    rw [walkStmt, walkStmt]
    exact h.bind (header? _ init) fun _ => h.bind (expr _ .single test) fun _ =>
      h.bind (block body) fun _ => h.bind (other? region other) fun _ => h.pure _
  | .loop _ init test post body => by
    rw [walkStmt, walkStmt]
    exact h.bind (header? region init) fun _ => h.bind (expr? .loopHeader test) fun _ =>
      h.bind (header? .loopHeader post) fun _ => h.bind (block body) fun _ => h.pure _
  | .range _ key value _ x body => by
    rw [walkStmt, walkStmt]
    exact h.bind (expr? region key) fun _ => h.bind (expr? region value) fun _ =>
      h.bind (expr region .single x) fun _ => h.bind (block body) fun _ => h.pure _
  | .switch _ init tag cs => by
    rw [walkStmt, walkStmt]
    exact h.bind (header? region init) fun _ => h.bind (expr? region tag) fun _ =>
      h.bind (clauses region true cs) fun _ => h.pure _
  | .block _ body => by
    rw [walkStmt, walkStmt]
    exact h.bind (block body) fun _ => h.pure _
  | .branch .. => by
    rw [walkStmt, walkStmt]
    exact h.pure _

theorem header? (region : Region) :
    ∀ s : Option Stmt, P (walkHeader? v region s) (walkHeader? v' region s)
  | none => by
    rw [walkHeader?, walkHeader?]
    exact h.pure _
  | some s => by
    rw [walkHeader?, walkHeader?]
    exact h.bind (stmt region .header s) fun _ => h.pure _

theorem other? (region : Region) :
    ∀ s : Option Stmt, P (walkOther? v region s) (walkOther? v' region s)
  | none => by
    rw [walkOther?, walkOther?]
    exact h.pure _
  | some s => by
    rw [walkOther?, walkOther?]
    exact h.bind (stmt region .other s) fun _ => h.pure _

theorem clauses (region : Region) (first : Bool) :
    ∀ cs : List CaseClause, P (walkClauses v region first cs) (walkClauses v' region first cs)
  | [] => by
    rw [walkClauses, walkClauses]
    exact h.pure _
  | .case _ xs body :: cs => by
    rw [walkClauses, walkClauses]
    exact h.bind (values region first xs) fun _ => h.bind (block body) fun _ =>
      h.bind (clauses region _ cs) fun _ => h.pure _
  | .default _ body :: cs => by
    rw [walkClauses, walkClauses]
    exact h.bind (block body) fun _ => h.bind (clauses region first cs) fun _ => h.pure _

theorem values (region : Region) (first : Bool) :
    ∀ xs : List Expr, P (walkValues v region first xs) (walkValues v' region first xs)
  | [] => by
    rw [walkValues, walkValues]
    exact h.pure _
  | x :: xs => by
    rw [walkValues, walkValues]
    exact h.bind (expr _ .single x) fun _ => h.bind (values region false xs) fun _ => h.pure _

theorem decl (region : Region) : ∀ d : Decl, P (walkDecl v region d) (walkDecl v' region d)
  | .types _ => by
    rw [walkDecl, walkDecl]
    exact h.pure _
  | .vars ss | .consts ss => by
    rw [walkDecl, walkDecl]
    exact h.bind (specs region ss) fun _ => h.pure _

theorem specs (region : Region) :
    ∀ ss : List ValueSpec, P (walkSpecs v region ss) (walkSpecs v' region ss)
  | [] => by
    rw [walkSpecs, walkSpecs]
    exact h.pure _
  | ⟨_, _, _, values⟩ :: ss => by
    rw [walkSpecs, walkSpecs]
    exact h.bind (list region _ values) fun _ => h.bind (specs region ss) fun _ => h.pure _

end

theorem func (f : FuncDecl) : P (walkFunc v f) (walkFunc v' f) := by
  unfold walkFunc
  cases f.body with
  | none => exact h.pure _
  | some b =>
    exact h.bind (h.enterFunc _) fun _ => h.bind (h.block b) fun _ =>
      h.bind h.exitFunc fun _ => h.pure _

theorem top (t : TopDecl) : P (walkTop v t) (walkTop v' t) := by
  cases t with
  | decl d =>
    rw [walkTop, walkTop]
    exact h.bind (h.decl .packageLevel d) fun _ => h.pure _
  | func f =>
    rw [walkTop, walkTop]
    exact h.bind (h.func f) fun _ => h.pure _

theorem tops (ts : List TopDecl) : P (ts.mapM (walkTop v)) (ts.mapM (walkTop v')) := by
  induction ts with
  | nil =>
    rw [mapM_nil, mapM_nil]
    exact h.pure _
  | cons t ts ih =>
    rw [mapM_cons, mapM_cons]
    exact h.bind (h.top t) fun _ => h.bind ih fun _ => h.pure _

theorem file (f : File) : P (walkFile v f) (walkFile v' f) :=
  h.bind (h.tops f.decls) fun _ => h.pure _

end Relates

/-- A property of parts of a walk that every question to the visitor has, and
that passes to sequences. -/
structure Closed (v : Visitor σ ε) (P : {α : Type} → WalkM σ ε α → Prop) : Prop where
  pure : ∀ {α : Type} (a : α), P (pure a : WalkM σ ε α)
  bind : ∀ {α β : Type} {m : WalkM σ ε α} {f : α → WalkM σ ε β}, P m → (∀ a, P (f a)) → P (m >>= f)
  enterFunc : ∀ sig, P (ask () (v.enterFunc sig))
  exitFunc : P (ask () v.exitFunc)
  enterBlock : ∀ b, P (ask () (v.enterBlock b))
  exitBlock : ∀ b, P (ask () (v.exitBlock b))
  enterStmt : ∀ s, P (ask .walk (v.enterStmt s))
  exitStmt : ∀ s, P (ask {} (v.exitStmt s))
  exitExpr : ∀ x position, P (ask .keep (v.exitExpr x position))

namespace Closed

variable {v : Visitor σ ε} {P : {α : Type} → WalkM σ ε α → Prop}

theorem relates (h : Closed v P) : Relates v v fun m m' => m = m' ∧ P m where
  pure a := ⟨rfl, h.pure a⟩
  bind := by
    rintro α β m _ f f' ⟨rfl, hm⟩ hf
    obtain rfl : f = f' := funext fun a => (hf a).1
    exact ⟨rfl, h.bind hm fun a => (hf a).2⟩
  enterFunc sig := ⟨rfl, h.enterFunc sig⟩
  exitFunc := ⟨rfl, h.exitFunc⟩
  enterBlock b := ⟨rfl, h.enterBlock b⟩
  exitBlock b := ⟨rfl, h.exitBlock b⟩
  enterStmt s := ⟨rfl, h.enterStmt s⟩
  exitStmt s := ⟨rfl, h.exitStmt s⟩
  exitExpr x position := ⟨rfl, h.exitExpr x position⟩

theorem file (h : Closed v P) (f : File) : P (walkFile v f) := (h.relates.file f).2

end Closed

/-! ## What follows for every visitor -/

theorem closed_persists (v : Visitor σ ε) : Closed v Persists where
  pure _ := inferInstance
  bind {_ _} m f hm hf := @persists_bind _ _ _ _ m f hm hf
  enterFunc _ := inferInstance
  exitFunc := inferInstance
  enterBlock _ := inferInstance
  exitBlock _ := inferInstance
  enterStmt _ := inferInstance
  exitStmt _ := inferInstance
  exitExpr _ _ := inferInstance

section Instances

variable (v : Visitor σ ε) (region : Region) (slot : Slot)

instance (x : Expr) : Persists (v.leave region slot x) := ((closed_persists v).relates.leave region slot x).2

instance (x : Expr) : Persists (walkExpr v region slot x) := ((closed_persists v).relates.expr region slot x).2

instance (x : Option Expr) : Persists (walkExpr? v region x) := ((closed_persists v).relates.expr? region x).2

instance (xs : List Expr) : Persists (walkEach v region xs) := ((closed_persists v).relates.each region xs).2

instance (xs : List Expr) : Persists (walkList v region slot xs) := ((closed_persists v).relates.list region slot xs).2

instance (b : Block) : Persists (walkBlock v b) := ((closed_persists v).relates.block b).2

instance (ss : List Stmt) : Persists (walkStmts v ss) := ((closed_persists v).relates.stmts ss).2

instance (place : Place) (s : Stmt) : Persists (walkStmt v region place s) :=
  ((closed_persists v).relates.stmt region place s).2

instance (s : Option Stmt) : Persists (walkHeader? v region s) := ((closed_persists v).relates.header? region s).2

instance (s : Option Stmt) : Persists (walkOther? v region s) := ((closed_persists v).relates.other? region s).2

instance (first : Bool) (cs : List CaseClause) : Persists (walkClauses v region first cs) :=
  ((closed_persists v).relates.clauses region first cs).2

instance (first : Bool) (xs : List Expr) : Persists (walkValues v region first xs) :=
  ((closed_persists v).relates.values region first xs).2

instance (ss : List ValueSpec) : Persists (walkSpecs v region ss) := ((closed_persists v).relates.specs region ss).2

instance (ts : List TopDecl) : Persists (ts.mapM (walkTop v)) := ((closed_persists v).relates.tops ts).2

end Instances

/-- The walk after an answer, which may be a failure. -/
def Walk.after (step : VisitM σ ε α) (s : σ) : Walk σ ε :=
  match step s with
  | (.ok _, s') => ⟨s', none⟩
  | (.error e, s') => ⟨s', some e⟩

/-- What holds of each answer of a visitor, failures included, holds of a
walk. -/
theorem closed_of_answers {v : Visitor σ ε} {R : Walk σ ε → Walk σ ε → Prop} (refl : ∀ w, R w w)
    (trans : ∀ {w1 w2 w3}, R w1 w2 → R w2 w3 → R w1 w3)
    (enterFunc : ∀ sig s, R ⟨s, none⟩ (.after (v.enterFunc sig) s))
    (exitFunc : ∀ s, R ⟨s, none⟩ (.after v.exitFunc s))
    (enterBlock : ∀ b s, R ⟨s, none⟩ (.after (v.enterBlock b) s))
    (exitBlock : ∀ b s, R ⟨s, none⟩ (.after (v.exitBlock b) s))
    (enterStmt : ∀ t s, R ⟨s, none⟩ (.after (v.enterStmt t) s))
    (exitStmt : ∀ t s, R ⟨s, none⟩ (.after (v.exitStmt t) s))
    (exitExpr : ∀ x position s, R ⟨s, none⟩ (.after (v.exitExpr x position) s)) :
    Closed v fun m => ∀ w, R w (m w).2 := by
  have ask_spec : ∀ {α : Type} (idle : α) (step : VisitM σ ε α),
      (∀ s, R ⟨s, none⟩ (.after step s)) → ∀ w, R w (ask idle step w).2 := by
    rintro α idle step hstep ⟨s, _ | e⟩
    · have := hstep s
      unfold Walk.after at this
      unfold ask
      rcases h : step s with ⟨e | a, s'⟩ <;> simp only [h] at this ⊢ <;> exact this
    · exact refl _
  exact {
    pure := fun _ w => refl w
    bind := fun hm hf w => by
      rw [bind_apply]
      exact trans (hm w) (hf _ _)
    enterFunc := fun sig => ask_spec _ _ (enterFunc sig)
    exitFunc := ask_spec _ _ exitFunc
    enterBlock := fun b => ask_spec _ _ (enterBlock b)
    exitBlock := fun b => ask_spec _ _ (exitBlock b)
    enterStmt := fun t => ask_spec _ _ (enterStmt t)
    exitStmt := fun t => ask_spec _ _ (exitStmt t)
    exitExpr := fun x position => ask_spec _ _ (exitExpr x position) }

/-! ## Walks that fail

A walk that may fail is a walk that does not, over states that hold the
failure. So what is known of walks that succeed tells about all walks. -/

/-- A step that notes its failure in the state and then goes on idly. -/
def recorded (idle : α) (step : VisitM σ ε α) : VisitM (Walk σ ε) Empty α := fun w =>
  (.ok (ask idle step w).1, (ask idle step w).2)

/-- The visitor that notes its failure in the state. -/
def Visitor.recording (v : Visitor σ ε) : Visitor (Walk σ ε) Empty where
  enterFunc sig := recorded () (v.enterFunc sig)
  exitFunc := recorded () v.exitFunc
  enterBlock b := recorded () (v.enterBlock b)
  exitBlock b := recorded () (v.exitBlock b)
  enterStmt s := recorded .walk (v.enterStmt s)
  exitStmt s := recorded {} (v.exitStmt s)
  exitExpr x position := recorded .keep (v.exitExpr x position)

theorem recorded_ok {idle : α} {step : VisitM σ ε α} {w w' : Walk σ ε} (h : recorded idle step w = (.ok a, w')) :
    (w.failure.isSome = true ∧ a = idle ∧ w' = w) ∨
    (∃ s', w.failure = none ∧ step w.state = (.ok a, s') ∧ w' = ⟨s', none⟩) ∨
    ∃ e s', w.failure = none ∧ step w.state = (.error e, s') ∧ a = idle ∧ w' = ⟨s', some e⟩ := by
  obtain ⟨s, failure⟩ := w
  cases failure with
  | some e =>
    cases h
    exact .inl ⟨rfl, rfl, rfl⟩
  | none =>
    unfold recorded ask at h
    rcases hstep : step s with ⟨e | b, s'⟩
    · simp only [hstep] at h
      cases h
      exact .inr (.inr ⟨e, s', rfl, rfl, rfl, rfl⟩)
    · simp only [hstep] at h
      cases h
      exact .inr (.inl ⟨s', rfl, rfl, rfl⟩)

theorem relates_recording (v : Visitor σ ε) : Relates v v.recording
    fun m m' => ∀ w, m' ⟨w, none⟩ = ((m w).1, ⟨(m w).2, none⟩) where
  pure _ _ := rfl
  bind hm hf w := by rw [bind_apply, bind_apply, hm, hf]
  enterFunc _ _ := rfl
  exitFunc _ := rfl
  enterBlock _ _ := rfl
  exitBlock _ _ := rfl
  enterStmt _ _ := rfl
  exitStmt _ _ := rfl
  exitExpr _ _ _ := rfl

theorem succeeds_recording (v : Visitor σ ε) (f : File) (w : Walk σ ε) :
    Succeeds (walkFile v.recording f) w (walkFile v f w).1 (walkFile v f w).2 :=
  (relates_recording v).file f w

end CheckHandle
