import CheckHandle.Proofs.SourceOrder
import CheckHandle.Proofs.Standing

/-!
# What collection finds

Each step of collection in one equation, and from it what is tied to what. The
checks that it binds stand at a call in the statement that they are bound to. A
check takes the offset of its marker with it, and so does a handler, which leaves
the tree. An offset that has been taken is not taken again, so no two nodes share
a marker.
-/

namespace CheckHandle

open Std List

variable {position : Position} {action : ExprAction} {x : Expr} {s' : Collecting} {t : Stmt}

variable {b : CheckBinding} {i : NodeId}
    {p q : Package} {c : Collected}

attribute [local simp] Expr.term Stmt.statement Term.walked countAll walkedIn walkedAll

/-! ## Steps -/

theorem Collecting.ownStmt_eq (s : Collecting) (id : NodeId) :
    ∃ ownership, s.ownStmt id = { s with out := { s.out with ownership } } := by
  unfold Collecting.ownStmt
  split
  · exact ⟨s.out.ownership, rfl⟩
  · exact ⟨_, rfl⟩

theorem Collecting.ownExpr_eq (s : Collecting) (id : NodeId) :
    ∃ ownership, s.ownExpr id = { s with out := { s.out with ownership } } := by
  unfold Collecting.ownExpr
  split
  · obtain ⟨ownership, h⟩ := s.ownStmt_eq id
    rw [h]
    exact ⟨_, rfl⟩
  · exact ⟨s.out.ownership, rfl⟩

variable {markers : Markers} {file : Nat}

variable {enter : Enter} {s : Collecting}

theorem collectHandler_ok {errName : String} (h : collectHandler t errName s = (.ok enter, s')) :
    enter = .remove ∧ ∃ body func funcs block blocks, handlerBody? t = some body ∧
      s.funcs = func :: funcs ∧ func.blocks = block :: blocks ∧
      s' = { s with
        out := { s.out with handlers := s.out.handlers ++ [⟨errName, body, t.info.span⟩] }
        funcs := { func with
          blocks := { block with handlers := s.out.handlers.length :: block.handlers } :: blocks }
            :: funcs } := by
  unfold collectHandler at h
  rcases hbody : handlerBody? t with _ | body
  · simp only [hbody] at h
    exact absurd h visit_throw
  simp only [hbody, visit_bind, visit_get, visit_set] at h
  obtain ⟨_, s, ⟨rfl, rfl⟩, _, _, rfl, h⟩ := h
  rcases hfuncs : s.funcs with _ | ⟨func, funcs⟩
  · simp only [Collecting.addHandler, hfuncs] at h
    exact absurd h visit_throw
  rcases hblocks : func.blocks with _ | ⟨block, blocks⟩
  · simp only [Collecting.addHandler, hfuncs, hblocks] at h
    exact absurd h visit_throw
  simp only [Collecting.addHandler, hfuncs, hblocks, visit_bind, visit_set, visit_pure] at h
  obtain ⟨_, _, rfl, rfl, rfl⟩ := h
  exact ⟨rfl, body, func, funcs, block, blocks, rfl, rfl, hblocks, rfl⟩

theorem collectCheck_ok {region : Region} {u : Unit} (h : collectCheck file x region s = (.ok u, s')) :
    ∃ operand func funcs stmt stmts block, x.argsOf? checkFunc = some [operand] ∧
      region.refusal? = none ∧ s.funcs = func :: funcs ∧ s.stmts = stmt :: stmts ∧
      s.block? = some block ∧
      s' = { s with
        out := { s.out with
          checks := s.out.checks.insert x.info.id
            { id := x.info.id, file, span := x.info.span, func := func.index, block, stmt, chain := s.chain } } } := by
  unfold collectCheck at h
  rcases hregion : region.refusal? with _ | place
  rotate_left
  · simp only [hregion, visit_bind] at h
    obtain ⟨_, _, h, -⟩ := h
    exact absurd h visit_throw
  simp only [hregion] at h
  by_cases hcount : ((x.argsOf? checkFunc).getD []).length = 1
  rotate_left
  · rw [if_pos (by simpa using hcount)] at h
    rw [visit_bind] at h
    obtain ⟨_, _, h, -⟩ := h
    exact absurd h visit_throw
  rw [if_neg (by simpa using hcount)] at h
  obtain ⟨operand, hargs⟩ : ∃ operand, x.argsOf? checkFunc = some [operand] := by
    rcases hx : x.argsOf? checkFunc with _ | (_ | ⟨operand, _ | ⟨_, _⟩⟩) <;> simp [hx] at hcount ⊢
  simp only [visit_bind, visit_get] at h
  obtain ⟨_, s, ⟨rfl, rfl⟩, h⟩ := h
  rcases hfuncs : s.funcs with _ | ⟨func, funcs⟩
  · simp only [hfuncs] at h
    exact absurd h visit_throw
  rcases hstmts : s.stmts with _ | ⟨stmt, stmts⟩
  · simp only [hfuncs, hstmts] at h
    exact absurd h visit_throw
  rcases hblock : s.block? with _ | block
  · simp only [hfuncs, hstmts, hblock] at h
    exact absurd h visit_throw
  simp only [hfuncs, hstmts, hblock, visit_set] at h
  subst h
  exact ⟨operand, func, funcs, stmt, stmts, block, hargs, rfl, rfl, rfl, rfl, rfl⟩

/-- A handler is taken out of the tree, or a statement is entered. -/
theorem enterStmt_collector (h : (collector markers file).enterStmt t s = (.ok enter, s')) :
    (enter = .walk ∧ ∃ ownership, s' = { s with
      out := { s.out with ownership }, stmts := t.info.id :: s.stmts }) ∨
    (enter = .remove ∧ ∃ errName body func funcs block blocks, markers.handles.get? t.info.span.start = some errName ∧
      s.boundHandles.contains t.info.span.start = false ∧
      handlerBody? t = some body ∧ s.funcs = func :: funcs ∧ func.blocks = block :: blocks ∧
      s' = { s with
        out := { s.out with handlers := s.out.handlers ++ [⟨errName, body, t.info.span⟩] }
        boundHandles := s.boundHandles.insert t.info.span.start
        funcs := { func with
          blocks := { block with handlers := s.out.handlers.length :: block.handlers } :: blocks }
            :: funcs }) := by
  have walked : ∀ {s s' : Collecting}, (do
        let s' := s.ownStmt t.info.id
        set { s' with stmts := t.info.id :: s'.stmts }
        return Enter.walk : CollectM Enter) s = (.ok enter, s') →
      enter = .walk ∧ ∃ ownership, s' = { s with
        out := { s.out with ownership }, stmts := t.info.id :: s.stmts } := by
    intro s s' h
    simp only [visit_bind, visit_set, visit_pure] at h
    obtain ⟨_, _, rfl, rfl, rfl⟩ := h
    obtain ⟨ownership, h⟩ := s.ownStmt_eq t.info.id
    exact ⟨rfl, ownership, by rw [h]⟩
  simp only [collector, visit_bind, visit_get] at h
  obtain ⟨_, s, ⟨rfl, rfl⟩, h⟩ := h
  rcases hhandle : markers.handles.get? t.info.span.start with _ | errName
  · simp only [hhandle] at h
    exact .inl (walked h)
  · simp only [hhandle] at h
    rcases hbound : s.boundHandles.contains t.info.span.start with _ | _
    · simp only [hbound, Bool.not_false, if_true, visit_bind, visit_set] at h
      obtain ⟨_, _, rfl, h⟩ := h
      obtain ⟨rfl, body, func, funcs, block, blocks, hbody, hfuncs, hblocks, rfl⟩ := collectHandler_ok h
      exact .inr ⟨rfl, errName, body, func, funcs, block, blocks, rfl, rfl, hbody, hfuncs, hblocks, rfl⟩
    · simp only [hbound, Bool.not_true, Bool.false_eq_true, if_false] at h
      exact .inl (walked h)

/-- A check is bound, or nothing but the owners of the expression is noted. -/
theorem exitExpr_collector (h : (collector markers file).exitExpr x position s = (.ok action, s')) :
    action = .keep ∧ ∃ ownership, (s' = { s with out := { s.out with ownership } } ∨
      ∃ operand func funcs stmt stmts block, x.argsOf? checkFunc = some [operand] ∧
        markers.checks.contains x.info.span.start = true ∧
        s.boundChecks.contains x.info.span.start = false ∧
        position.region.refusal? = none ∧ s.funcs = func :: funcs ∧ s.stmts = stmt :: stmts ∧
        s.block? = some block ∧
        s' = { s with
          out := { s.out with
            ownership
            checks := s.out.checks.insert x.info.id
              { id := x.info.id, file, span := x.info.span, func := func.index, block, stmt, chain := s.chain } }
          boundChecks := s.boundChecks.insert x.info.span.start }) := by
  simp only [collector, visit_bind, visit_get, visit_set] at h
  obtain ⟨_, s, ⟨rfl, rfl⟩, _, _, rfl, h⟩ := h
  obtain ⟨ownership, howned⟩ := s.ownExpr_eq x.info.id
  rw [howned] at h
  by_cases bound : (markers.checks.contains x.info.span.start && !x.startsWithPart
      && (x.argsOf? checkFunc).isSome && !s.boundChecks.contains x.info.span.start) = true
  · rw [if_pos bound] at h
    simp only [visit_bind, visit_set, visit_pure] at h
    obtain ⟨_, _, rfl, _, _, hcheck, rfl, rfl⟩ := h
    obtain ⟨operand, func, funcs, stmt, stmts, block, hargs, hregion, hfuncs, hstmts, hblock, rfl⟩ :=
      collectCheck_ok hcheck
    simp only [Bool.and_eq_true, Bool.not_eq_true'] at bound
    exact ⟨rfl, ownership, .inr ⟨operand, func, funcs, stmt, stmts, block, hargs, bound.1.1.1,
      bound.2, hregion, hfuncs, hstmts, hblock, rfl⟩⟩
  · rw [if_neg bound, visit_pure] at h
    obtain ⟨rfl, rfl⟩ := h
    exact ⟨rfl, ownership, .inl rfl⟩

/-! ## Terms without some of their statements -/

mutual

/-- A term without the statements in `R`. -/
def Term.drop (R : NodeId → Bool) : Term → Term
  | .expr listed kind info parts => .expr listed kind info (dropAll R parts)
  | .group kind info parts => .group kind info (dropAll R parts)
  | .fixed kind info parts => .fixed kind info parts
  | .block info ss => .block info (dropIn R ss)

def dropAll (R : NodeId → Bool) : List Term → List Term
  | [] => []
  | t :: ts => t.drop R :: dropAll R ts

def dropIn (R : NodeId → Bool) : List Statement → List Statement
  | [] => []
  | .mk kind info parts :: ss =>
    if R info.id then dropIn R ss
    else .mk kind info (dropAll R parts) :: dropIn R ss

end

theorem dropAll_append (R : NodeId → Bool) (ts us : List Term) :
    dropAll R (ts ++ us) = dropAll R ts ++ dropAll R us :=
  append_of_cons rfl (fun _ _ => by simp [dropAll]) ts us

theorem dropIn_append (R : NodeId → Bool) (ss ts : List Statement) :
    dropIn R (ss ++ ts) = dropIn R ss ++ dropIn R ts :=
  append_of_cons rfl (fun ⟨_, _, _⟩ _ => by simp only [dropIn]; split <;> rfl) ss ts

section Agreement

variable {R R' : NodeId → Bool}

mutual

theorem Term.drop_congr : ∀ {t : Term}, (∀ i, 0 < t.count i → R i = R' i) → t.drop R = t.drop R'
  | .expr listed kind info parts, h | .group kind info parts, h => by
    rw [Term.drop, Term.drop, dropAll_congr fun i hi => h i (by simp only [Term.count]; omega)]
  | .fixed kind info parts, _ => by rw [Term.drop, Term.drop]
  | .block info ss, h => by
    rw [Term.drop, Term.drop, dropIn_congr fun i hi => h i (by simp only [Term.count]; omega)]

theorem dropAll_congr : ∀ {ts : List Term}, (∀ i, 0 < countAll i ts → R i = R' i) → dropAll R ts = dropAll R' ts
  | [], _ => by rw [dropAll, dropAll]
  | t :: ts, h => by
    rw [dropAll, dropAll, Term.drop_congr fun i hi => h i (by simp only [countAll]; omega),
      dropAll_congr fun i hi => h i (by simp only [countAll]; omega)]

theorem dropIn_congr : ∀ {ss : List Statement},
    (∀ i, 0 < countIn i ss → R i = R' i) → dropIn R ss = dropIn R' ss
  | [], _ => by rw [dropIn, dropIn]
  | .mk kind info parts :: ss, h => by
    rw [dropIn, dropIn, h info.id (by simp only [countIn, Info.count_self]; omega),
      dropAll_congr fun i hi => h i (by simp only [countIn]; omega),
      dropIn_congr fun i hi => h i (by simp only [countIn]; omega)]

end

end Agreement

mutual

theorem Term.drop_none : ∀ t : Term, t.drop (fun _ => false) = t
  | .expr listed kind info parts | .group kind info parts => by rw [Term.drop, dropAll_none parts]
  | .fixed kind info parts => by rw [Term.drop]
  | .block info ss => by rw [Term.drop, dropIn_none ss]

theorem dropAll_none : ∀ ts : List Term, dropAll (fun _ => false) ts = ts
  | [] => by rw [dropAll]
  | t :: ts => by rw [dropAll, Term.drop_none t, dropAll_none ts]

theorem dropIn_none : ∀ ss : List Statement, dropIn (fun _ => false) ss = ss
  | [] => by rw [dropIn]
  | .mk kind info parts :: ss => by
    rw [dropIn, dropAll_none parts, dropIn_none ss]
    rfl

end

section Count

variable (R : NodeId → Bool) (i : NodeId)

mutual

theorem Term.count_drop_le : ∀ t : Term, (t.drop R).count i ≤ t.count i
  | .expr listed kind info parts | .group kind info parts => by
    have := countAll_drop_le parts
    simp only [Term.drop, Term.count]
    omega
  | .fixed kind info parts => by simp [Term.drop]
  | .block info ss => by
    have := countIn_drop_le ss
    simp only [Term.drop, Term.count]
    omega

theorem countAll_drop_le : ∀ ts : List Term, countAll i (dropAll R ts) ≤ countAll i ts
  | [] => by simp [dropAll]
  | t :: ts => by
    have := Term.count_drop_le t
    have := countAll_drop_le ts
    simp only [dropAll, countAll]
    omega

theorem countIn_drop_le : ∀ ss : List Statement, countIn i (dropIn R ss) ≤ countIn i ss
  | [] => by simp [dropIn]
  | .mk kind info parts :: ss => by
    have := countAll_drop_le parts
    have := countIn_drop_le ss
    simp only [dropIn]
    split <;> (simp only [countIn]; omega)

end

end Count

/-! ## Where checks and handlers come from -/

/-- The parts of a call that wraps a checked expression. -/
def AreCheckParts (parts : List Term) : Prop :=
  ∃ (info : Info) (operand : Expr), parts = [.expr false (.ident checkFunc) info [],
    .group .list none [operand.term true]]

/-- `i` is a check among the expressions of these parts. -/
def HasCheck (parts : List Term) (i : NodeId) : Prop := ∃ node ∈ nodesAll parts, node.1.id = i ∧ AreCheckParts node.2

/-- `i` is a check in the one of these statements that is `stmt`. -/
def StandsIn (ss : List Statement) (stmt i : NodeId) : Prop := ∃ t ∈ ss, t.info.id = stmt ∧ HasCheck t.parts i

/-- One of these statements is `i`, the conditional of a handler. -/
def IsHandler (ss : List Statement) (i : NodeId) (body : Block) : Prop :=
  ∃ t : Stmt, t.statement ∈ ss ∧ t.info.id = i ∧ handlerBody? t = some body

variable {occurs1 occurs2 : NodeId → Nat} {R1 R2 R : NodeId → Bool} {s1 : Collecting}
  {tree tree' : File} {out out' : Collected} {index : Nat} {files files' : List SourceFile}

theorem HasCheck.mono {parts parts' : List Term} (h : nodesAll parts ⊆ nodesAll parts') :
    HasCheck parts i → HasCheck parts' i :=
  fun ⟨node, hnode, hi⟩ => ⟨node, h hnode, hi⟩

/-- What is taken out of one of two parts is not in the other. -/
theorem or_eq_left (distinct : ∀ i, occurs1 i + occurs2 i ≤ 1)
    (h2 : ∀ {i}, R2 i = true → 0 < occurs2 i) (hi : 0 < occurs1 i) : R1 i = (R1 i || R2 i) := by
  rcases hR2 : R2 i with _ | _
  · rw [Bool.or_false]
  · have := h2 hR2
    have := distinct i
    omega

theorem or_eq_right (distinct : ∀ i, occurs1 i + occurs2 i ≤ 1)
    (h1 : ∀ {i}, R1 i = true → 0 < occurs1 i) (hi : 0 < occurs2 i) : R2 i = (R1 i || R2 i) := by
  rcases hR1 : R1 i with _ | _
  · rw [Bool.false_or]
  · have := h1 hR1
    have := distinct i
    omega

theorem enterStmt_walk (h : (collector markers file).enterStmt t s = (.ok .walk, s')) :
    ∃ ownership, s' = { s with out := { s.out with ownership }, stmts := t.info.id :: s.stmts } := by
  obtain ⟨-, kept⟩ | ⟨h, -⟩ := enterStmt_collector h
  · exact kept
  · cases h

theorem enterStmt_ne_skip : (collector markers file).enterStmt t s ≠ (.ok .skip, s') := by
  intro h
  rcases enterStmt_collector h with ⟨h, -⟩ | ⟨h, -⟩ <;> cases h

theorem exprTerms_keep (x : Expr) (listed : Bool) :
    exprTerms listed ((ExprAction.keep.visited x).inPlace listed) = [x.term listed] := by
  cases listed <;> rfl

/-! ### Syntax in which no node stands twice -/

section Once

variable {ts us : List Term} {ss tt : List Statement}

theorem distinct_append (h : ∀ i, countAll i (ts ++ us) ≤ 1) :
    (∀ i, countAll i ts ≤ 1) ∧ (∀ i, countAll i us ≤ 1) ∧ ∀ i, countAll i ts + countAll i us ≤ 1 := by
  simp only [countAll_append] at h
  exact ⟨fun i => Nat.le_trans (Nat.le_add_right ..) (h i), fun i => Nat.le_trans (Nat.le_add_left ..) (h i), h⟩

theorem distinct_andThen (h : ∀ i, countIn i (ss ++ tt) ≤ 1) : (∀ i, countIn i ss ≤ 1) ∧
    (∀ i, countIn i tt ≤ 1) ∧ ∀ i, countIn i ss + countIn i tt ≤ 1 := by
  simp only [countIn_append] at h
  exact ⟨fun i => Nat.le_trans (Nat.le_add_right ..) (h i), fun i => Nat.le_trans (Nat.le_add_left ..) (h i), h⟩

theorem distinct_group {kind : Kind} {info : Option Info} (h : ∀ i, countAll i [.group kind info ts] ≤ 1) (i : NodeId) :
    countAll i ts ≤ 1 :=
  Nat.le_trans (by simp [Term.count]) (h i)

theorem distinct_expr {listed : Bool} (h : ∀ i, countAll i [x.term listed] ≤ 1) (i : NodeId) :
    countAll i x.parts ≤ 1 :=
  Nat.le_trans (by simp [Term.count]) (h i)

theorem distinct_block {info : Info} (h : ∀ i, countAll i [.block info ss] ≤ 1) (i : NodeId) :
    countIn i ss ≤ 1 :=
  Nat.le_trans (by simp [Term.count]) (h i)

theorem distinct_stmt (h : ∀ i, countIn i [t.statement] ≤ 1) (i : NodeId) : countAll i t.parts ≤ 1 :=
  Nat.le_trans (by simp [countIn]) (h i)

end Once

/-! ## The expressions of a tree -/

mutual

/-- The expressions in a term, those in its blocks included. -/
def Term.exprs : Term → List Term
  | .expr listed kind info parts => .expr listed kind info parts :: exprsIn parts
  | .group _ _ parts => exprsIn parts
  | .fixed .. => []
  | .block _ ss => exprsOf ss

def exprsIn : List Term → List Term
  | [] => []
  | t :: ts => t.exprs ++ exprsIn ts

def exprsOf : List Statement → List Term
  | [] => []
  | .mk _ _ parts :: ss => exprsIn parts ++ exprsOf ss

end

theorem exprsIn_append (ts us : List Term) : exprsIn (ts ++ us) = exprsIn ts ++ exprsIn us :=
  append_of_cons rfl (fun _ _ => by simp [exprsIn]) ts us

theorem exprsOf_append (ss ts : List Statement) : exprsOf (ss ++ ts) = exprsOf ss ++ exprsOf ts :=
  append_of_cons rfl (fun ⟨_, _, _⟩ _ => by simp [exprsOf]) ss ts

theorem walkedAll_append (ts us : List Term) : walkedAll (ts ++ us) = walkedAll ts ++ walkedAll us :=
  append_of_cons rfl (fun _ _ => by simp) ts us

theorem walkedIn_append (ss ts : List Statement) :
    walkedIn (ss ++ ts) = walkedIn ss ++ walkedIn ts :=
  append_of_cons rfl (fun ⟨_, _, _⟩ _ => by simp) ss ts

/-! ## What is tied to what -/

/-- What `b` binds is a call of the check function with one argument, one of
the expressions `xs`. -/
def CheckBinding.IsCall (b : CheckBinding) (xs : List Term) : Prop :=
  ∃ (x : Expr) (listed : Bool) (operand : Expr), x.term listed ∈ xs ∧ x.info = ⟨b.id, b.span⟩ ∧
    x.argsOf? checkFunc = some [operand]

theorem CheckBinding.IsCall.mono {xs ys : List Term} (h : b.IsCall xs) (hsub : xs ⊆ ys) : b.IsCall ys := by
  obtain ⟨x, listed, operand, hx, hcall⟩ := h
  exact ⟨x, listed, operand, hsub hx, hcall⟩

/-- The statement `t` becomes the handler `h`, which has the error name of the
marker where the statement starts. -/
def Markers.Turns (markers : Markers) (t : Stmt) (h : Handler) : Prop :=
  markers.handles.get? t.info.span.start = some h.errName ∧ handlerBody? t = some h.body ∧ h.span = t.info.span

/-- The nodes of these statements. -/
def takes (taken : List Stmt) (i : NodeId) : Bool := taken.any fun t => t.info.id == i

theorem takes_append (taken taken' : List Stmt) :
    takes (taken ++ taken') = fun i => takes taken i || takes taken' i := by
  funext i
  simp [takes]

theorem mem_of_forall₂ {α β : Type} {R : α → β → Prop} {as : List α} {bs : List β} (h : List.Forall₂ R as bs) :
    (∀ a ∈ as, ∃ b ∈ bs, R a b) ∧ ∀ b ∈ bs, ∃ a ∈ as, R a b := by
  induction h with
  | nil => exact ⟨nofun, nofun⟩
  | cons h _ ih => simp_all

mutual

/-- What is walked stands in a block. -/
theorem Term.walked_subset : ∀ t : Term, t.walked ⊆ standing [t]
  | .expr _ _ _ parts | .group _ _ parts => by
    simpa [standing, blocksAll, Term.blocks] using walkedAll_subset parts
  | .fixed .. => by simp
  | .block _ ss => by
    simpa [standing, standingIn, blocksAll, Term.blocks] using walkedIn_subset ss

theorem walkedAll_subset : ∀ ts : List Term, walkedAll ts ⊆ standing ts
  | [] => by simp
  | t :: ts => by
    rw [walkedAll, standing_cons]
    exact append_subset.mpr ⟨subset_append_of_subset_left _ t.walked_subset,
      subset_append_of_subset_right _ (walkedAll_subset ts)⟩

theorem walkedIn_subset : ∀ ss : List Statement, walkedIn ss ⊆ standingIn ss
  | [] => by simp
  | .mk _ _ parts :: ss => by
    intro s hs
    rw [walkedIn] at hs
    rw [mem_standingIn_cons]
    rcases mem_cons.mp hs with rfl | hs
    · exact .inl rfl
    · rcases mem_append.mp hs with hs | hs
      · exact .inr (.inl (walkedAll_subset parts hs))
      · exact .inr (.inr (walkedIn_subset ss hs))

end

/-- Collection from `s` to `s'` over a part with the nodes `occurs` and the
statements `before`, which leaves the expressions `after` and the statements
`inside`. It binds the checks `added`, the latest first, to these statements or,
at the `level` outside them, to the one around; and takes the statements `taken`
out. -/
structure Tied (markers : Markers) (file : Nat) (occurs : NodeId → Nat) (before : List Statement)
    (after : List Term) (inside : List Statement) (level : NodeId → Prop) (s s' : Collecting)
    (added : List CheckBinding) (taken : List Stmt) : Prop where
  stmts : s'.stmts = s.stmts
  placed : ∀ b ∈ added, s.stmts.head? = some b.stmt ∧ level b.id ∨ StandsIn inside b.stmt b.id
  once : ∀ i, (added.map CheckBinding.id).count i + (taken.map fun t => t.info.id).count i ≤ occurs i
  checks : ∀ i, s'.out.checks.get? i = (added.find? fun b => b.id == i).or (s.out.checks.get? i)
  calls : ∀ b ∈ added, b.file = file ∧ b.span.start ∈ markers.checks ∧ b.IsCall after
  newChecks : ∀ b ∈ added, b.span.start ∉ s.boundChecks
  apart : (added.map fun b => b.span.start).Nodup
  boundChecks : ∀ o, o ∈ s'.boundChecks ↔ (∃ b ∈ added, b.span.start = o) ∨ o ∈ s.boundChecks
  handlers : ∃ new, s'.out.handlers = s.out.handlers ++ new ∧ List.Forall₂ markers.Turns taken new
  order : (taken.map Stmt.statement).Sublist before
  newHandles : ∀ t ∈ taken, t.info.span.start ∉ s.boundHandles
  handlesApart : (taken.map fun t => t.info.span.start).Nodup
  boundHandles : ∀ o, o ∈ s'.boundHandles ↔ (∃ t ∈ taken, t.info.span.start = o) ∨ o ∈ s.boundHandles

namespace Tied

variable {occurs : NodeId → Nat}
  {before before1 before2 inside inside1 inside2 : List Statement} {after after1 after2 : List Term}
  {level level1 level2 : NodeId → Prop}
  {s2 : Collecting} {added added1 added2 : List CheckBinding} {taken taken1 taken2 : List Stmt}

/-- Steps that tie nothing. -/
theorem of_eq (hstmts : s'.stmts = s.stmts) (hchecks : s'.out.checks = s.out.checks)
    (hhandlers : s'.out.handlers = s.out.handlers) (hbound : s'.boundChecks = s.boundChecks)
    (hbound' : s'.boundHandles = s.boundHandles) : Tied markers file occurs before after inside level s s' [] [] where
  stmts := hstmts
  placed b hb := nomatch hb
  once i := by simp
  checks i := by simp [hchecks]
  calls b hb := nomatch hb
  newChecks b hb := nomatch hb
  apart := .nil
  boundChecks o := by simp [hbound]
  handlers := ⟨[], by simp [hhandlers], .nil⟩
  order := nil_sublist _
  newHandles t ht := nomatch ht
  handlesApart := .nil
  boundHandles o := by simp [hbound']

/-- Where these checks stand, seen in a larger part. -/
theorem placed_mono (h : Tied markers file occurs before after inside1 level1 s s' added taken)
    (hinside : inside1 ⊆ inside) (hlevel : ∀ {i}, level1 i → level i) :
    ∀ b ∈ added, s.stmts.head? = some b.stmt ∧ level b.id ∨ StandsIn inside b.stmt b.id := by
  intro b hb
  rcases h.placed b hb with ⟨hstmt, hb⟩ | ⟨t, ht, hb⟩
  · exact .inl ⟨hstmt, hlevel hb⟩
  · exact .inr ⟨t, hinside ht, hb⟩

theorem mono (h : Tied markers file occurs1 before1 after1 inside1 level1 s s' added taken)
    (hoccurs : ∀ i, occurs1 i ≤ occurs i) (hbefore : before1.Sublist before) (hafter : after1 ⊆ after)
    (hinside : inside1 ⊆ inside) (hlevel : ∀ {i}, level1 i → level i) :
    Tied markers file occurs before after inside level s s' added taken where
  stmts := h.stmts
  placed := h.placed_mono hinside hlevel
  once i := Nat.le_trans (h.once i) (hoccurs i)
  checks := h.checks
  calls b hb := by
    obtain ⟨hfile, hmarker, hcall⟩ := h.calls b hb
    exact ⟨hfile, hmarker, hcall.mono hafter⟩
  newChecks := h.newChecks
  apart := h.apart
  boundChecks := h.boundChecks
  handlers := h.handlers
  order := h.order.trans hbefore
  newHandles := h.newHandles
  handlesApart := h.handlesApart
  boundHandles := h.boundHandles

/-- One part after the other. -/
theorem trans (h1 : Tied markers file occurs1 before1 after1 inside1 level1 s s1 added1 taken1)
    (h2 : Tied markers file occurs2 before2 after2 inside2 level2 s1 s2 added2 taken2)
    (hinside : inside1 ⊆ inside ∧ inside2 ⊆ inside) (hlevel : ∀ {i}, level1 i ∨ level2 i → level i) :
    Tied markers file (fun i => occurs1 i + occurs2 i) (before1 ++ before2) (after1 ++ after2) inside level s s2
      (added2 ++ added1) (taken1 ++ taken2) where
  stmts := by rw [h2.stmts, h1.stmts]
  placed b hb := by
    rcases mem_append.mp hb with hb | hb
    · rw [← h1.stmts]
      exact h2.placed_mono hinside.2 (fun h => hlevel (.inr h)) b hb
    · exact h1.placed_mono hinside.1 (fun h => hlevel (.inl h)) b hb
  once i := by
    have := h1.once i
    have := h2.once i
    simp only [map_append, count_append]
    omega
  checks i := by rw [h2.checks, h1.checks, find?_append, Option.or_assoc]
  calls b hb := by
    rcases mem_append.mp hb with hb | hb
    · obtain ⟨hfile, hmarker, hcall⟩ := h2.calls b hb
      exact ⟨hfile, hmarker, hcall.mono (subset_append_right _ _)⟩
    · obtain ⟨hfile, hmarker, hcall⟩ := h1.calls b hb
      exact ⟨hfile, hmarker, hcall.mono (subset_append_left _ _)⟩
  newChecks b hb hbound := by
    rcases mem_append.mp hb with hb | hb
    · exact h2.newChecks b hb ((h1.boundChecks _).mpr (.inr hbound))
    · exact h1.newChecks b hb hbound
  apart := by
    rw [map_append, nodup_append]
    refine ⟨h2.apart, h1.apart, ?_⟩
    rintro o ho _ ho' rfl
    obtain ⟨b, hb, rfl⟩ := mem_map.mp ho
    obtain ⟨b', hb', heq⟩ := mem_map.mp ho'
    exact h2.newChecks b hb ((h1.boundChecks _).mpr (.inl ⟨b', hb', heq⟩))
  boundChecks o := by
    rw [h2.boundChecks, h1.boundChecks, ← or_assoc]
    simp only [mem_append, or_and_right, exists_or]
  handlers := by
    obtain ⟨new1, hnew1, hall1⟩ := h1.handlers
    obtain ⟨new2, hnew2, hall2⟩ := h2.handlers
    exact ⟨new1 ++ new2, by rw [hnew2, hnew1, append_assoc], rel_append hall1 hall2⟩
  order := by
    rw [map_append]
    exact h1.order.append h2.order
  newHandles t ht hbound := by
    rcases mem_append.mp ht with ht | ht
    · exact h1.newHandles t ht hbound
    · exact h2.newHandles t ht ((h1.boundHandles _).mpr (.inr hbound))
  handlesApart := by
    rw [map_append, nodup_append]
    refine ⟨h1.handlesApart, h2.handlesApart, ?_⟩
    rintro o ho _ ho' rfl
    obtain ⟨t, ht, rfl⟩ := mem_map.mp ho
    obtain ⟨t', ht', heq⟩ := mem_map.mp ho'
    exact h2.newHandles t' ht' ((h1.boundHandles _).mpr (.inl ⟨t, ht, heq.symm⟩))
  boundHandles o := by
    rw [h2.boundHandles, h1.boundHandles, ← or_assoc]
    simp only [mem_append, or_and_right, exists_or]
    rw [or_comm (a := ∃ t ∈ taken2, _)]

/-- Steps before and after that tie nothing do not matter. -/
theorem of_same (h : Tied markers file occurs before after inside1 level1 s1 s2 added taken)
    (hs : s1.out.checks = s.out.checks ∧ s1.out.handlers = s.out.handlers ∧
      s1.boundChecks = s.boundChecks ∧ s1.boundHandles = s.boundHandles)
    (hs' : s'.out.checks = s2.out.checks ∧ s'.out.handlers = s2.out.handlers ∧
      s'.boundChecks = s2.boundChecks ∧ s'.boundHandles = s2.boundHandles) (stmts : s'.stmts = s.stmts)
    (placed : ∀ b ∈ added, s.stmts.head? = some b.stmt ∧ level b.id ∨ StandsIn inside b.stmt b.id) :
    Tied markers file occurs before after inside level s s' added taken where
  stmts
  placed
  once := h.once
  checks i := by rw [hs'.1, h.checks, hs.1]
  calls := h.calls
  newChecks b hb := hs.2.2.1 ▸ h.newChecks b hb
  apart := h.apart
  boundChecks o := by rw [hs'.2.2.1, h.boundChecks, hs.2.2.1]
  handlers := by
    rw [hs'.2.1, ← hs.2.1]
    exact h.handlers
  order := h.order
  newHandles t ht := hs.2.2.2 ▸ h.newHandles t ht
  handlesApart := h.handlesApart
  boundHandles o := by rw [hs'.2.2.2, h.boundHandles, hs.2.2.2]

theorem occurs_of_takes (h : Tied markers file occurs before after inside level s s' added taken)
    (hi : takes taken i = true) : 0 < occurs i := by
  obtain ⟨t, ht, heq⟩ := any_eq_true.mp hi
  have mem : i ∈ taken.map fun t => t.info.id := mem_map.mpr ⟨t, ht, eq_of_beq heq⟩
  have := count_pos_iff.mpr mem
  have := h.once i
  omega

/-- A check is tied to the marker where it starts. -/
theorem bind {operand : Expr} {out : Collected}
    (hid : b.id = x.info.id) (hspan : b.span = x.info.span) (hfile : b.file = file)
    (hargs : x.argsOf? checkFunc = some [operand])
    (hmarker : markers.checks.contains x.info.span.start = true)
    (hnew : s.boundChecks.contains x.info.span.start = false)
    (hchecks : out.checks = s.out.checks.insert x.info.id b)
    (hhandlers : out.handlers = s.out.handlers) (hstmt : s.stmts.head? = some b.stmt) (listed : Bool) :
    Tied markers file (fun i => x.info.count i) [] [x.term listed] [] (HasCheck [x.term listed]) s
      { s with out, boundChecks := s.boundChecks.insert x.info.span.start } [b] [] where
  stmts := rfl
  placed b' hb' := by
    obtain rfl := mem_singleton.mp hb'
    obtain ⟨fn, hparts⟩ := Expr.parts_of_argsOf? hargs
    exact .inl ⟨hstmt, (x.info, x.parts), by simp [nodesAll, Term.nodes], hid.symm, fn, operand, hparts⟩
  once i := by simp [Info.count, count_singleton, hid]
  checks i := by
    show out.checks.get? i = _
    rw [hchecks, TreeMap.get?_eq_getElem?, TreeMap.getElem?_insert]
    by_cases hi : x.info.id = i
    · simp [hi, hid]
    · simp [hi, hid]
  calls b' hb' := by
    obtain rfl := mem_singleton.mp hb'
    refine ⟨hfile, ?_, x, listed, operand, mem_singleton_self _, ?_, hargs⟩
    · rw [hspan]
      exact hmarker
    · rw [hid, hspan]
  newChecks b' hb' := by
    obtain rfl := mem_singleton.mp hb'
    rw [hspan, TreeSet.mem_iff_contains, hnew]
    exact Bool.false_ne_true
  apart := nodup_singleton _
  boundChecks o := by simp [TreeSet.mem_insert, hspan]
  handlers := ⟨[], by simp [hhandlers], .nil⟩
  order := nil_sublist _
  newHandles t ht := nomatch ht
  handlesApart := .nil
  boundHandles o := by simp

/-- The report of an expression ties it to its marker, or does nothing. -/
theorem report (h : (collector markers file).exitExpr x position s = (.ok action, s')) (listed : Bool) :
    action = .keep ∧ ∃ added, Tied markers file (fun i => x.info.count i) [] [x.term listed] []
      (HasCheck [x.term listed]) s s' added [] := by
  obtain ⟨haction, ownership, rfl | ⟨operand, func, funcs, stmt, stmts, block, hargs, hmarker, hnew, -,
    -, hstmts, -, rfl⟩⟩ := exitExpr_collector h
  · exact ⟨haction, [], .of_eq rfl rfl rfl rfl rfl⟩
  · let b : CheckBinding :=
      { id := x.info.id, file, span := x.info.span, func := func.index, block, stmt, chain := s.chain }
    refine ⟨haction, [b], bind (b := b) ?_ ?_ ?_ hargs hmarker hnew ?_ ?_ (by rw [hstmts]; rfl) listed⟩ <;> rfl

/-- A handler is tied to the marker where it starts. -/
theorem remove (h : (collector markers file).enterStmt t s = (.ok .remove, s')) :
    Tied markers file (fun i => t.info.count i) [t.statement] after inside level s s' [] [t] := by
  rcases enterStmt_collector h with ⟨h, -⟩ | ⟨-, errName, body, func, funcs, block, blocks, hmarker, hnew,
    hbody, -, -, rfl⟩
  · cases h
  exact {
    stmts := rfl
    placed := fun b hb => nomatch hb
    once := fun i => by simp [Info.count, count_singleton]
    checks := fun i => by simp
    calls := fun b hb => nomatch hb
    newChecks := fun b hb => nomatch hb
    apart := .nil
    boundChecks := fun o => by simp
    handlers := ⟨[⟨errName, body, t.info.span⟩], rfl, .cons ⟨hmarker, hbody, rfl⟩ .nil⟩
    order := List.Sublist.refl _
    newHandles := fun t' ht' => by
      obtain rfl := mem_singleton.mp ht'
      rw [TreeSet.mem_iff_contains, hnew]
      exact Bool.false_ne_true
    handlesApart := nodup_singleton _
    boundHandles := fun o => by simp [TreeSet.mem_insert] }

/-- An expression with its parts, up to its report. -/
theorem expr {x' : Expr} (hkind : x'.kind = x.kind)
    (hinfo : x'.info = x.info) (hparts : x'.parts = dropAll (takes taken) x.parts)
    (h : Tied markers file (countAll · x.parts) (walkedAll x.parts) (exprsIn x'.parts) (standing x'.parts)
      (HasCheck x'.parts) s s1 added taken)
    (hexit : (collector markers file).exitExpr x' position s1 = (.ok action, s')) (listed : Bool) :
    action = .keep ∧ [x'.term listed] = dropAll (takes taken) [x.term listed] ∧
      ∃ added, Tied markers file (countAll · [x.term listed]) (walkedAll [x.term listed])
        (exprsIn [x'.term listed]) (standing [x'.term listed]) (HasCheck [x'.term listed]) s s' added taken := by
  obtain ⟨haction, new, hreport⟩ := report hexit listed
  refine ⟨haction, by simp [dropAll, Term.drop, hkind, hinfo, hparts], new ++ added, ?_⟩
  have level : ∀ {i}, HasCheck x'.parts i ∨ HasCheck [x'.term listed] i → HasCheck [x'.term listed] i :=
    fun h => h.elim (.mono (by simp [nodesAll, Term.nodes])) id
  have both := h.trans hreport ⟨List.Subset.refl _, nil_subset _⟩ level
  rw [append_nil, append_nil] at both
  refine both.mono (fun i => ?_) ?_ ?_ ?_ id
  · simp only [countAll, Expr.term, Term.count, hinfo]
    omega
  · simp
  · simp [exprsIn, Term.exprs]
  · simp [standing, blocksAll, Term.blocks]

/-- A statement of a block, from its entry to its exit. -/
theorem statement {t' : Stmt} {ownership : Ownership} (hkind : t'.kind = t.kind)
    (hinfo : t'.info = t.info) (hparts : t'.parts = dropAll (takes taken) t.parts)
    (h : Tied markers file (countAll · t.parts) (walkedAll t.parts) (exprsIn t'.parts) (standing t'.parts)
      (HasCheck t'.parts) { s with out := { s.out with ownership }, stmts := t.info.id :: s.stmts } s1 added taken)
    (distinct : ∀ i, countIn i [t.statement] ≤ 1) :
    [t'.statement] = dropIn (takes taken) [t.statement] ∧
      Tied markers file (countIn · [t.statement]) (walkedIn [t.statement])
        (exprsOf [t'.statement]) (standingIn [t'.statement]) (fun _ => False) s { s1 with stmts := s1.stmts.tail }
        added taken := by
  have self : takes taken t.info.id = false := by
    rcases hR : takes taken t.info.id with _ | _
    · rfl
    · have occurs := h.occurs_of_takes hR
      have hdistinct := distinct t.info.id
      simp only [Stmt.statement, countIn, Info.count_self] at hdistinct
      omega
  have inside : standing t'.parts ⊆ standingIn [t'.statement] := by
    simp [standing, standingIn, blocksIn]
  refine ⟨by simp [dropIn, self, hkind, hinfo, hparts],
    .of_same (h.mono (fun i => ?_) ?_ ?_ inside id) ⟨rfl, rfl, rfl, rfl⟩ ⟨rfl, rfl, rfl, rfl⟩ ?_ fun b hb => ?_⟩
  · simp [countIn]
  · simp
  · simp [exprsOf]
  · exact congrArg tail h.stmts
  -- checks at the level of the statement are bound to it
  · rcases h.placed_mono inside id b hb with ⟨hstmt, hb⟩ | hb
    · exact .inr ⟨t'.statement, by simp [standingIn], (congrArg Info.id hinfo).trans (Option.some.inj hstmt), hb⟩
    · exact .inr hb

end Tied

/-- Collection over syntax in which no node stands twice ties checks and
handlers to their markers. -/
theorem follows_tied (markers : Markers) (file : Nat) : Follows (collector markers file)
      (fun s ts ts' s' => (∀ i, countAll i ts ≤ 1) → ∃ added taken, ts' = dropAll (takes taken) ts ∧
        Tied markers file (countAll · ts) (walkedAll ts) (exprsIn ts') (standing ts') (HasCheck ts') s s' added taken)
      (fun s ss ss' s' => (∀ i, countIn i ss ≤ 1) → ∃ added taken, ss' = dropIn (takes taken) ss ∧
        Tied markers file (countIn · ss) (walkedIn ss) (exprsOf ss') (standingIn ss') (fun _ => False)
          s s' added taken) where
  nil _ := ⟨[], [], rfl, .of_eq rfl rfl rfl rfl rfl⟩
  append {ts ts' us us' s s1 s2} ht hu distinct := by
    obtain ⟨first, last, distinct'⟩ := distinct_append distinct
    obtain ⟨added1, taken1, rfl, h1⟩ := ht first
    obtain ⟨added2, taken2, rfl, h2⟩ := hu last
    refine ⟨added2 ++ added1, taken1 ++ taken2, ?_, ?_⟩
    · rw [takes_append, dropAll_append, dropAll_congr fun i hi => or_eq_left distinct' h2.occurs_of_takes hi,
        dropAll_congr fun i hi => or_eq_right distinct' h1.occurs_of_takes hi]
    · simp only [countAll_append, walkedAll_append, exprsIn_append]
      exact h1.trans h2 (by simp [standing_append]) fun h =>
        h.elim (.mono (by simp [nodesAll_append])) (.mono (by simp [nodesAll_append]))
  fixed _ := ⟨[], [], by simp [dropAll, Term.drop], .of_eq rfl rfl rfl rfl rfl⟩
  group {kind i? parts parts' s s'} h distinct := by
    obtain ⟨added, taken, rfl, h⟩ := h (distinct_group distinct)
    refine ⟨added, taken, by simp [dropAll, Term.drop], h.mono (fun i => ?_) ?_ ?_ ?_ (.mono ?_)⟩
    · simp [Term.count]
    · simp
    · simp [exprsIn, Term.exprs]
    · simp [standing, blocksAll, Term.blocks]
    · simp [nodesAll, Term.nodes]
  expr {x x' listed slot region action s s1 s'} hkind hinfo fits h hexit distinct := by
    obtain ⟨added, taken, hparts, h⟩ := h (distinct_expr distinct)
    obtain ⟨rfl, hdrop, added, h⟩ := h.expr hkind hinfo hparts hexit listed
    rw [exprTerms_keep]
    exact ⟨added, taken, hdrop, h⟩
  func {sig b b' s s1 s2 s3} henter h hexit distinct := by
    cases henter
    cases hexit
    obtain ⟨added, taken, hb', h⟩ := h distinct
    exact ⟨added, taken, hb', h.of_same ⟨rfl, rfl, rfl, rfl⟩ ⟨rfl, rfl, rfl, rfl⟩ h.stmts h.placed⟩
  block {i ss ss' s s1 s2 s3} henter h hexit distinct := by
    cases henter
    obtain ⟨added, taken, hss', h⟩ := h (distinct_block distinct)
    have hpop : s3.stmts = s2.stmts ∧ s3.out.checks = s2.out.checks ∧ s3.out.handlers = s2.out.handlers ∧
        s3.boundChecks = s2.boundChecks ∧ s3.boundHandles = s2.boundHandles := by
      obtain rfl : s3 = s2.popBlock := by
        cases hexit
        rfl
      unfold Collecting.popBlock
      split <;> exact ⟨rfl, rfl, rfl, rfl, rfl⟩
    have inside : standingIn (statements ss') ⊆ standing [.block i (statements ss')] := by
      simp [standing, standingIn, blocksAll, Term.blocks]
    refine ⟨added, taken, by simp [dropAll, Term.drop, hss'], .of_same (h.mono (fun i => ?_) ?_ ?_ inside id)
      ⟨rfl, rfl, rfl, rfl⟩ hpop.2 (hpop.1.trans h.stmts) (h.placed_mono inside False.elim)⟩
    · simp [Term.count]
    · simp
    · simp [exprsIn, Term.exprs]
  done _ := ⟨[], [], rfl, .of_eq rfl rfl rfl rfl rfl⟩
  andThen {ss ss' ts ts' s s1 s2} hs ht distinct := by
    obtain ⟨first, last, distinct'⟩ := distinct_andThen distinct
    obtain ⟨added1, taken1, rfl, h1⟩ := hs first
    obtain ⟨added2, taken2, rfl, h2⟩ := ht last
    refine ⟨added2 ++ added1, taken1 ++ taken2, ?_, ?_⟩
    · rw [takes_append, dropIn_append,
        dropIn_congr fun i hi => or_eq_left distinct' h2.occurs_of_takes hi,
        dropIn_congr fun i hi => or_eq_right distinct' h1.occurs_of_takes hi]
    · simp only [countIn_append, walkedIn_append, exprsOf_append]
      exact h1.trans h2 (standingIn_append_subset _ _) (Or.elim · id id)
  removed {t s s'} henter _ := by
    refine ⟨[], [t], by simp [dropIn, takes],
      (Tied.remove henter).mono (fun i => ?_) ?_ (List.Subset.refl _) (List.Subset.refl _) id⟩
    · simp only [Stmt.statement, countIn]
      omega
    · simp
  skipped henter := absurd henter enterStmt_ne_skip
  stmt {t t' action s s1 s2 s3} hne hkind hinfo henter h hexit distinct := by
    obtain ⟨ownership, rfl⟩ := enterStmt_walk henter
    obtain ⟨added, taken, hparts, h⟩ := h (distinct_stmt distinct)
    cases hexit
    obtain ⟨hdrop, h⟩ := h.statement hkind hinfo hparts distinct
    exact ⟨added, taken, hdrop, h⟩
  exprStmt {i x x' action act s s1 s2 s3 s4} hkind hinfo henter h hx hexit distinct := by
    obtain ⟨ownership, rfl⟩ := enterStmt_walk henter
    obtain ⟨added, taken, hparts, h⟩ := h (distinct_expr (distinct_stmt distinct))
    obtain ⟨rfl, hdrop, added, h⟩ := h.expr hkind hinfo hparts hx false
    cases hexit
    have hkind' : (Stmt.expr i x').kind = (Stmt.expr i x).kind := rfl
    obtain ⟨hdrop', h⟩ := Tied.statement hkind' rfl hdrop h distinct
    exact ⟨added, taken, hdrop', h⟩

/-! ## Files and packages -/

/-- A file without the conditionals of its handlers. -/
def File.Freed (tree tree' : File) (R : NodeId → Bool) : Prop := tree'.term = tree.term.drop R ∧
    ∀ {i}, R i = true → ∃ body, IsHandler (standing [tree.term]) i body

theorem collectFile_walk (h : collectFile markers file tree out = .ok (tree', out')) :
    ∃ s', Succeeds (walkFile (collector markers file) tree) { out } tree' s' ∧
      unclaimed? markers s' = none ∧ s'.out = out' := by
  unfold collectFile at h
  rcases hwalk : walkFile (collector markers file) tree ⟨{ out }, none⟩ with ⟨tree1, s', failure⟩
  rw [hwalk] at h
  rcases failure with _ | fault
  rotate_left
  · cases h
  simp only at h
  split at h
  · cases h
  rename_i claimed
  cases h
  exact ⟨s', hwalk, claimed, rfl⟩

theorem collectFile_ok (h : collectFile markers file tree out = .ok (tree', out'))
    (distinct : ∀ i, tree.term.count i ≤ 1) :
    ∃ R, tree.Freed tree' R ∧ (∃ new, out'.handlers = out.handlers ++ new ∧
        ∀ h ∈ new, ∃ i, R i = true ∧ IsHandler (standing [tree.term]) i h.body) ∧
      (∀ {i b}, out'.checks.get? i = some b → out.checks.get? i = some b ∨
        b.id = i ∧ b.file = file ∧ StandsIn (standing [tree'.term]) b.stmt i) ∧
      ∀ {i b}, out.checks.get? i = some b → tree.term.count i = 0 → out'.checks.get? i = some b := by
  obtain ⟨s', hwalk, -, rfl⟩ := collectFile_walk h
  have hcount : ∀ i, countAll i [tree.term] = tree.term.count i := by simp
  obtain ⟨added, taken, hdrop, h⟩ := (follows_tied markers file).inFile tree hwalk fun i => by
    rw [hcount]
    exact distinct i
  obtain ⟨new, hnew, turns⟩ := h.handlers
  have handler : ∀ {t h}, t ∈ taken → markers.Turns t h → IsHandler (standing [tree.term]) t.info.id h.body :=
    fun {t _} ht turn => ⟨t, walkedAll_subset _ (h.order.subset (mem_map_of_mem ht)), rfl, turn.2.1⟩
  refine ⟨takes taken, ⟨by simpa [dropAll] using hdrop, fun hi => ?_⟩, ⟨new, hnew, fun x hx => ?_⟩, fun {i b} hb => ?_,
    fun {i b} hb hi => ?_⟩
  · obtain ⟨t, ht, heq⟩ := any_eq_true.mp hi
    obtain ⟨x, -, turn⟩ := (mem_of_forall₂ turns).1 t ht
    exact ⟨x.body, eq_of_beq heq ▸ handler ht turn⟩
  · obtain ⟨t, ht, turn⟩ := (mem_of_forall₂ turns).2 x hx
    exact ⟨t.info.id, any_eq_true.mpr ⟨t, ht, beq_self_eq_true _⟩, handler ht turn⟩
  · rw [h.checks, Option.or_eq_some_iff] at hb
    rcases hb with hb | ⟨-, hb⟩
    · have mem := mem_of_find?_eq_some hb
      obtain rfl : b.id = i := eq_of_beq (find?_some hb :)
      exact .inr ⟨rfl, (h.calls b mem).1, (h.placed b mem).resolve_left nofun⟩
    · exact .inl hb
  · have absent : i ∉ added.map CheckBinding.id := by
      have once := h.once i
      rw [hcount, hi] at once
      exact count_eq_zero.mp (by omega)
    rw [h.checks, find?_eq_none.mpr fun b hb heq => absent (mem_map.mpr ⟨b, hb, eq_of_beq heq⟩)]
    exact hb

/-- What collection makes of a file. -/
structure SourceFile.Freed (f f' : SourceFile) : Prop where
  same : f' = { f with tree := f'.tree }
  plain : f.isMarked = false → f' = f
  tree : ∃ R, f.tree.Freed f'.tree R

theorem SourceFile.Freed.refl (f : SourceFile) : f.Freed f where
  same := rfl
  plain _ := rfl
  tree := ⟨fun _ => false, (Term.drop_none _).symm, fun h => nomatch h⟩

/-- What collection makes of the files from number `index` on. -/
structure FilesFreed (index : Nat) (out out' : Collected) (files files' : List SourceFile) : Prop where
  length_eq : files'.length = files.length
  freed : ∀ {k : Nat} {f f'}, files[k]? = some f → files'[k]? = some f' → f.Freed f'
  handlers : ∃ new, out'.handlers = out.handlers ++ new ∧
    ∀ h ∈ new, ∃ f ∈ files, ∃ i, IsHandler (standing [f.tree.term]) i h.body
  bound : ∀ {i b}, out'.checks.get? i = some b → out.checks.get? i = some b ∨
    b.id = i ∧ ∃ k f', b.file = index + k ∧ files'[k]? = some f' ∧ f'.isMarked = true ∧
      StandsIn (standing [f'.tree.term]) b.stmt i
  kept : ∀ {i b}, out.checks.get? i = some b → countFiles i files = 0 → out'.checks.get? i = some b

/-- One file more. -/
theorem FilesFreed.cons {out1 : Collected} {file file' : SourceFile}
    (h : FilesFreed (index + 1) out1 out' files files') (hfile : file.Freed file')
    (handlers : ∃ new, out1.handlers = out.handlers ++ new ∧
      ∀ h ∈ new, ∃ i, IsHandler (standing [file.tree.term]) i h.body)
    (bound : ∀ {i b}, out1.checks.get? i = some b → out.checks.get? i = some b ∨
      b.id = i ∧ b.file = index ∧ file'.isMarked = true ∧ StandsIn (standing [file'.tree.term]) b.stmt i)
    (kept : ∀ {i b}, out.checks.get? i = some b → file.tree.term.count i = 0 → out1.checks.get? i = some b) :
    FilesFreed index out out' (file :: files) (file' :: files') where
  length_eq := by rw [length_cons, length_cons, h.length_eq]
  freed {k f f'} hf hf' := by
    cases k with
    | zero =>
      cases hf
      cases hf'
      exact hfile
    | succ k => exact h.freed hf hf'
  handlers := by
    obtain ⟨new1, hnew1, hall1⟩ := handlers
    obtain ⟨new2, hnew2, hall2⟩ := h.handlers
    refine ⟨new1 ++ new2, by rw [hnew2, hnew1, append_assoc], fun x hx => ?_⟩
    rcases mem_append.mp hx with hx | hx
    · exact ⟨file, mem_cons_self, hall1 x hx⟩
    · obtain ⟨f, hf, hi⟩ := hall2 x hx
      exact ⟨f, mem_cons_of_mem _ hf, hi⟩
  bound {i b} hb := by
    rcases h.bound hb with hb | ⟨hid, k, f', hfile, hf', marked, hi⟩
    · rcases bound hb with hb | ⟨hid, hfile, marked, hi⟩
      · exact .inl hb
      · exact .inr ⟨hid, 0, file', hfile, rfl, marked, hi⟩
    · exact .inr ⟨hid, k + 1, f', by omega, hf', marked, hi⟩
  kept {i b} hb hi := by
    rw [countFiles] at hi
    exact h.kept (kept hb (by omega)) (by omega)

/-- What collection does with the first file. -/
theorem collectFiles_cons {file : SourceFile} (h : collectFiles index out (file :: files) = .ok (files', out')) :
    ∃ file' out1 rest, (file.lowered = none ∧ file' = file ∧ out1 = out ∨
      ∃ lowered tree, file.lowered = some lowered ∧ collectFile lowered.markers index file.tree out = .ok (tree, out1) ∧
        file' = { file with tree }) ∧
      collectFiles (index + 1) out1 files = .ok (rest, out') ∧ files' = file' :: rest := by
  unfold collectFiles at h
  split at h
  · rename_i hlowered
    obtain ⟨⟨rest, _⟩, hrest, h⟩ := ok_of_bind h
    cases h
    exact ⟨file, out, rest, .inl ⟨hlowered, rfl, rfl⟩, hrest, rfl⟩
  · rename_i lowered hlowered
    split at h
    · cases h
    · rename_i tree out1 hcollect
      obtain ⟨⟨rest, _⟩, hrest, h⟩ := ok_of_bind h
      cases h
      exact ⟨_, out1, rest, .inr ⟨lowered, tree, hlowered, hcollect, rfl⟩, hrest, rfl⟩

theorem countFiles_cons_le {file : SourceFile} (distinct : ∀ i, countFiles i (file :: files) ≤ 1) :
    (∀ i, file.tree.term.count i ≤ 1) ∧ ∀ i, countFiles i files ≤ 1 :=
  ⟨fun i => Nat.le_trans (Nat.le_add_right _ _) (distinct i), fun i => Nat.le_trans (Nat.le_add_left _ _) (distinct i)⟩

theorem collectFiles_ok (h : collectFiles index out files = .ok (files', out'))
    (distinct : ∀ i, countFiles i files ≤ 1) : FilesFreed index out out' files files' := by
  induction files generalizing index out files' with
  | nil =>
    cases h
    exact ⟨rfl, (fun h => nomatch h), ⟨[], (append_nil _).symm, fun _ h => nomatch h⟩, .inl, fun hb _ => hb⟩
  | cons file files ih =>
    obtain ⟨distinct1, distinct2⟩ := countFiles_cons_le distinct
    obtain ⟨_, out1, _, ⟨-, rfl, rfl⟩ | ⟨lowered, tree, hlowered, hcollect, rfl⟩, hrest, rfl⟩ := collectFiles_cons h
    · exact (ih hrest distinct2).cons (.refl _)
        ⟨[], (append_nil _).symm, fun _ h => nomatch h⟩ .inl fun hb _ => hb
    · have marked : file.isMarked = true := by rw [SourceFile.isMarked, hlowered]; rfl
      obtain ⟨R, hR, ⟨new, hnew, hall⟩, bound, kept⟩ := collectFile_ok hcollect distinct1
      refine (ih hrest distinct2).cons ⟨by rw [hlowered], fun plain => ?_, R, hR⟩
        ⟨new, hnew, fun x hx => ?_⟩ (fun hb => ?_) kept
      · rw [marked] at plain
        cases plain
      · obtain ⟨i, -, hi⟩ := hall x hx
        exact ⟨i, hi⟩
      · rcases bound hb with hb | ⟨hid, hfile, hi⟩
        · exact .inl hb
        · exact .inr ⟨hid, hfile, marked, hi⟩

theorem collect_files (h : p.collect = .ok (q, c)) :
    q = { p with files := q.files } ∧ collectFiles 0 {} p.files = .ok (q.files, c) := by
  obtain ⟨⟨files, out⟩, hfiles, h⟩ := ok_of_bind h
  cases h
  exact ⟨rfl, hfiles⟩

section Each

variable {γ : Type} (log : Collected → List γ) (P : Collected → File → File → CheckBinding → Prop)
  (lasts : ∀ {c c' : Collected} {f f' b new}, P c f f' b → log c' = log c ++ new → P c' f f' b)
  (one : ∀ {markers file tree tree' out out'}, collectFile markers file tree out = .ok (tree', out') →
    (∀ i, tree.term.count i ≤ 1) → (∃ new, log out' = log out ++ new) ∧ ∀ {i b}, out'.checks.get? i = some b →
      out.checks.get? i = some b ∨ b.file = file ∧ P out' tree tree' b)

include lasts one

/-- What holds of the checks of one file, and lasts while the log grows, holds
of the checks of them all. -/
theorem collectFiles_each (h : collectFiles index out files = .ok (files', out'))
    (distinct : ∀ i, countFiles i files ≤ 1) :
    (∃ new, log out' = log out ++ new) ∧ ∀ {i b}, out'.checks.get? i = some b → out.checks.get? i = some b ∨
      ∃ k f f', b.file = index + k ∧ files[k]? = some f ∧ files'[k]? = some f' ∧ P out' f.tree f'.tree b := by
  induction files generalizing index out files' with
  | nil =>
    cases h
    exact ⟨⟨[], (append_nil _).symm⟩, .inl⟩
  | cons file files ih =>
    obtain ⟨distinct1, distinct2⟩ := countFiles_cons_le distinct
    obtain ⟨file', out1, rest, first, hrest, rfl⟩ := collectFiles_cons h
    obtain ⟨⟨new2, log2⟩, found⟩ := ih hrest distinct2
    have later : ∀ {i b}, out'.checks.get? i = some b → out1.checks.get? i = some b ∨ ∃ k f f', b.file = index + k ∧
        (file :: files)[k]? = some f ∧ (file' :: rest)[k]? = some f' ∧ P out' f.tree f'.tree b := fun hb =>
      (found hb).imp_right fun ⟨k, f, f', hfile, hfiles⟩ => ⟨k + 1, f, f', by omega, hfiles⟩
    obtain ⟨-, rfl, rfl⟩ | ⟨lowered, tree, -, hcollect, rfl⟩ := first
    · exact ⟨⟨new2, log2⟩, later⟩
    · obtain ⟨⟨new1, log1⟩, bound⟩ := one hcollect distinct1
      refine ⟨⟨new1 ++ new2, by rw [log2, log1, append_assoc]⟩, fun {i b} hb => ?_⟩
      rcases later hb with old | new
      · rcases bound old with old | ⟨hfile, hP⟩
        · exact .inl old
        · exact .inr ⟨0, _, _, hfile, rfl, rfl, lasts hP log2⟩
      · exact .inr new

theorem collect_each (collected : p.collect = .ok (q, c))
    (distinct : ∀ i, countFiles i p.files ≤ 1) {k : Nat} (check : c.Pending k i b) :
    ∃ f f', p.files[k]? = some f ∧ q.files[k]? = some f' ∧ P c f.tree f'.tree b := by
  obtain ⟨hb, rfl⟩ := check
  rcases (collectFiles_each log P lasts one (collect_files collected).2 distinct).2 hb with old | ⟨k, f, f', hfile, found⟩
  · cases old
  · rw [hfile, Nat.zero_add]
    exact ⟨f, f', found⟩

end Each

/-- Collection takes the handlers out of a package, and every check that it
binds stands in the statement that it is bound to. -/
theorem collect_ok (h : p.collect = .ok (q, c)) (distinct : ∀ i, countFiles i p.files ≤ 1) :
    q = { p with files := q.files } ∧ FilesFreed 0 {} c p.files q.files := by
  obtain ⟨same, hfiles⟩ := collect_files h
  exact ⟨same, collectFiles_ok hfiles distinct⟩

/-- A marked text on its own: how it is lowered, its tree before and after
collection, and what is found. -/
def collectText (source : String) : Option (Lowered × File × File × Collected) := do
  let lowered ← (lower source).toOption
  let (tree, _) ← (parseFile lowered.text 0).toOption
  let (tree', out) ← (collectFile lowered.markers 0 tree {}).toOption
  return (lowered, tree, tree', out)

theorem collectFile_of_collectText {source : String} {lowered : Lowered}
    (h : collectText source = some (lowered, tree, tree', out)) :
    ∃ n, lower source = .ok lowered ∧ parseFile lowered.text 0 = .ok (tree, n) ∧
      collectFile lowered.markers 0 tree {} = .ok (tree', out) := by
  unfold collectText at h
  rcases hlower : lower source with e | lowered1
  · rw [hlower] at h
    cases h
  rcases hparse : parseFile lowered1.text 0 with e | ⟨tree1, n⟩
  · simp only [hlower, hparse, Except.toOption, bind, Option.bind] at h
    cases h
  rcases hcollect : collectFile lowered1.markers 0 tree1 {} with e | ⟨tree2, out1⟩
  · simp only [hlower, hparse, hcollect, Except.toOption, bind, Option.bind] at h
    cases h
  · simp only [hlower, hparse, hcollect, Except.toOption, bind, Option.bind] at h
    cases h
    exact ⟨n, rfl, hparse, hcollect⟩

end CheckHandle
