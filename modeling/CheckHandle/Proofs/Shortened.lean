import CheckHandle.Proofs.Execution
import CheckHandle.Proofs.Resolution

/-!
# Shorter blocks

Some statements of a block are left out: those after a terminating one when
handlers are put together, and handlers themselves when a file is collected. What
is left means what it meant, since nothing that is left out is declared for the
rest.
-/

namespace CheckHandle

open List

attribute [local simp] Term.blocks blocksAll declaredIn standing standingIn

section Within

variable {x : String}

/-- `t'` declares what `t` declares, and its uses mean what they mean in `t`. -/
structure Term.Within (x : String) (t' t : Term) : Prop where
  declared : t'.declared x = t.declared x
  named : t'.named? x = t.named? x
  meanings : ∀ v b, t'.meanings x v b ⊆ t.meanings x v b

abbrev WithinTerms (x : String) : List Term → List Term → Prop := List.Forall₂ (Term.Within x)

/-- Statements that are seen from the same place. -/
def WithinStatements (x : String) (ss' ss : List Statement) : Prop :=
  ∀ v, meaningsIn x v ss' ⊆ meaningsIn x v ss

theorem Term.Within.refl (t : Term) : t.Within x t := ⟨rfl, rfl, fun _ _ => List.Subset.refl _⟩

namespace WithinTerms

variable {ts ts' : List Term}

theorem refl (ts : List Term) : WithinTerms x ts ts := by
  induction ts with
  | nil => exact .nil
  | cons t ts ih => exact .cons (.refl t) ih

theorem declared (h : WithinTerms x ts' ts) : declaredAll x ts' = declaredAll x ts := by
  induction h with
  | nil => rfl
  | cons h _ ih => rw [declaredAll, declaredAll, h.declared, ih]

theorem named (h : WithinTerms x ts' ts) : ts'.filterMap (Term.named? x) = ts.filterMap (Term.named? x) := by
  induction h with
  | nil => rfl
  | cons h _ ih => rw [filterMap_cons, filterMap_cons, h.named, ih]

theorem meanings (h : WithinTerms x ts' ts) (p : Plan) : meaningsAll x p ts' ⊆ meaningsAll x p ts := by
  induction h generalizing p with
  | nil => exact List.Subset.refl _
  | cons h _ ih =>
    rw [meaningsAll, meaningsAll, h.declared, h.named]
    refine append_subset.mpr ⟨?_, fun m hm => mem_append_right _ (ih _ hm)⟩
    split
    · exact nil_subset _
    · exact fun m hm => mem_append_left _ (h.meanings _ _ hm)

/-- The parts of a construct. -/
theorem planned (h : WithinTerms x ts' ts) (kind : Kind) (v : View) :
    meaningsAll x (kind.plan x ts' v) ts' ⊆ meaningsAll x (kind.plan x ts v) ts := by
  rw [kind.plan_congr h.declared]
  exact h.meanings _

theorem expr (h : WithinTerms x ts' ts) (listed : Bool) (kind : Kind) (info : Info) :
    (Term.expr listed kind info ts').Within x (.expr listed kind info ts) where
  declared := by rw [Term.declared, Term.declared]
  named := Term.named?_expr ..
  meanings v b := by
    rw [Term.meanings, Term.meanings]
    exact append_subset.mpr ⟨subset_append_left .., fun m hm =>
      mem_append_right _ (h.planned kind _ hm)⟩

theorem group (h : WithinTerms x ts' ts) (kind : Kind) (info : Option Info) :
    (Term.group kind info ts').Within x (.group kind info ts) where
  declared := by rw [Term.declared, Term.declared, h.named, h.declared]
  named := rfl
  meanings v b := by
    rw [Term.meanings, Term.meanings]
    exact h.planned kind v

theorem statement (h : WithinTerms x ts' ts) (kind : Kind) (info : Info) :
    Statement.declared x (.mk kind info ts') = Statement.declared x (.mk kind info ts) ∧
      WithinStatements x [.mk kind info ts'] [.mk kind info ts] := by
  constructor
  · unfold Statement.declared
    exact congrArg (fun ds => if kind.exports then ds else []) h.declared
  · intro v
    simp only [meaningsIn, append_nil]
    exact cons_subset_cons _ (h.planned kind v)

end WithinTerms

namespace WithinStatements

variable {ss ss' : List Statement}

theorem block (h : WithinStatements x ss' ss) (info : Info) : (Term.block info ss').Within x (.block info ss) where
  declared := by rw [Term.declared, Term.declared]
  named := rfl
  meanings v b := by
    rw [Term.meanings, Term.meanings]
    exact h _

/-- One statement more. -/
theorem cons {s s' : Statement} (head : WithinStatements x [s'] [s]) (declared : s'.declared x = s.declared x)
    (tail : WithinStatements x ss' ss) : WithinStatements x (s' :: ss') (s :: ss) := by
  intro v
  have same : declaredIn x [s'] = declaredIn x [s] := by
    simp [declared]
  show meaningsIn x v ([s'] ++ ss') ⊆ meaningsIn x v ([s] ++ ss)
  rw [meaningsIn_append, meaningsIn_append, same]
  exact append_subset.mpr ⟨fun m hm => mem_append_left _ (head v hm), fun m hm =>
    mem_append_right _ (tail _ hm)⟩

/-- What comes after is left out. -/
theorem cut (h : WithinStatements x ss' ss) (ts : List Statement) : WithinStatements x ss' (ss ++ ts) := by
  intro v m hm
  rw [meaningsIn_append]
  exact mem_append_left _ (h v hm)

/-- A statement without declarations is left out. -/
theorem skip {s : Statement} (silent : s.declared x = []) (h : WithinStatements x ss' ss) :
    WithinStatements x ss' (s :: ss) := by
  intro v m hm
  have : declaredIn x [s] = [] := by simp [silent]
  rw [← singleton_append, meaningsIn_append, this]
  exact mem_append_right _ (h v hm)

end WithinStatements

/-! ## Trimmed statements -/

theorem Stmt.kind_trim (s : Stmt) : s.trim.kind = s.kind := by
  rcases s with _ | _ | _ | _ | _ | ⟨_, _, _, ⟨_, _⟩, _ | _⟩ | ⟨_, _, _, _, ⟨_, _⟩⟩ | ⟨_, _, _, _, _, ⟨_, _⟩⟩ | _ |
    ⟨_, ⟨_, _⟩⟩ | _ | _ | _ <;> simp only [Stmt.trim, Stmt.kind]

theorem Stmt.info_trim (s : Stmt) : s.trim.info = s.info := by
  rcases s with _ | _ | _ | _ | _ | ⟨_, _, _, ⟨_, _⟩, _ | _⟩ | ⟨_, _, _, _, ⟨_, _⟩⟩ | ⟨_, _, _, _, _, ⟨_, _⟩⟩ | _ |
    ⟨_, ⟨_, _⟩⟩ | _ | _ | _ <;> simp only [Stmt.trim, Stmt.info]

mutual

theorem Stmt.trim_within (x : String) : ∀ s : Stmt, WithinTerms x s.trim.parts s.parts
  | .block _ ⟨info, stmts⟩ => by
    simp only [Stmt.trim, Stmt.parts, Block.term]
    exact .cons ((trimStmts_within x stmts).block info) .nil
  | .cond _ init test ⟨info, stmts⟩ none => by
    simp only [Stmt.trim, Stmt.parts, Block.term]
    exact .cons (.refl _) (.cons (.refl _) (.cons ((trimStmts_within x stmts).block info) (.cons (.refl _) .nil)))
  | .cond _ init test ⟨info, stmts⟩ (some other) => by
    simp only [Stmt.trim, Stmt.parts, Block.term, stmtTerm?, Stmt.kind_trim, Stmt.info_trim]
    exact .cons (.refl _) (.cons (.refl _) (.cons ((trimStmts_within x stmts).block info)
      (.cons ((other.trim_within x).group other.kind other.info) .nil)))
  | .loop _ init test post ⟨info, stmts⟩ => by
    simp only [Stmt.trim, Stmt.parts, Block.term]
    exact .cons (.refl _) (.cons (.refl _) (.cons (.refl _) (.cons ((trimStmts_within x stmts).block info) .nil)))
  | .range _ key value define y ⟨info, stmts⟩ => by
    simp only [Stmt.trim, Stmt.parts, Block.term]
    exact .cons (.refl _) (.cons (.refl _) (.cons ((trimStmts_within x stmts).block info) .nil))
  | .switch _ init tag clauses => by
    simp only [Stmt.trim, Stmt.parts]
    exact .cons (.refl _) (.cons (.refl _) (.cons ((trimClauses_within x clauses).group .list none) .nil))
  | .expr .. | .assign .. | .incDec .. | .decl .. | .ret .. | .go .. | .defer .. | .branch .. => by
    simp only [Stmt.trim]
    exact WithinTerms.refl _

/-- What is left of trimmed statements means what it meant. -/
theorem trimStmts_within (x : String) : ∀ ss : List Stmt, WithinStatements x (statements (trimStmts ss)) (statements ss)
  | [] => by
    rw [trimStmts]
    exact fun _ => List.Subset.refl _
  | s :: ss => by
    obtain ⟨declared, head⟩ := (s.trim_within x).statement s.kind s.info
    rw [trimStmts]
    split
    · simp only [statements, Stmt.kind_trim, Stmt.info_trim]
      exact head.cut (statements ss)
    · simp only [statements, Stmt.kind_trim, Stmt.info_trim]
      exact head.cons declared (trimStmts_within x ss)

theorem trimClauses_within (x : String) : ∀ cs : List CaseClause,
    WithinTerms x (clauseTerms (trimClauses cs)) (clauseTerms cs)
  | [] => by
    rw [trimClauses]
    exact WithinTerms.refl _
  | .case clause values ⟨info, stmts⟩ :: cs => by
    simp only [trimClauses, clauseTerms, Block.term]
    have body : WithinTerms x [.group .list none (exprTerms false values), .block info (statements (trimStmts stmts))]
        [.group .list none (exprTerms false values), .block info (statements stmts)] :=
      .cons (.refl _) (.cons ((trimStmts_within x stmts).block info) .nil)
    exact .cons (body.group .case clause) (trimClauses_within x cs)
  | .default clause ⟨info, stmts⟩ :: cs => by
    simp only [trimClauses, clauseTerms, Block.term]
    have body : WithinTerms x [.block info (statements (trimStmts stmts))] [.block info (statements stmts)] :=
      .cons ((trimStmts_within x stmts).block info) .nil
    exact .cons (body.group .default clause) (trimClauses_within x cs)

end

/-! ## Terms without some of their statements -/

section Drop

variable {R : NodeId → Bool}

mutual

theorem Term.drop_within : ∀ {t : Term}, (∀ s ∈ standing [t], R s.info.id = true → s.declared x = []) →
    (t.drop R).Within x t
  | .expr listed kind info parts, h => by
    rw [Term.drop]
    exact (dropAll_within (by simpa using h)).expr listed kind info
  | .group kind info parts, h => by
    rw [Term.drop]
    exact (dropAll_within (by simpa using h)).group kind info
  | .fixed .., _ => by
    rw [Term.drop]
    exact .refl _
  | .block info ss, h => by
    rw [Term.drop]
    refine (dropIn_within fun s hs => h s ?_).block info
    simpa using hs

theorem dropAll_within : ∀ {ts : List Term}, (∀ s ∈ standing ts, R s.info.id = true → s.declared x = []) →
    WithinTerms x (dropAll R ts) ts
  | [], _ => by
    rw [dropAll]
    exact .nil
  | t :: ts, h => by
    rw [dropAll]
    rw [standing_cons] at h
    exact .cons (Term.drop_within fun s hs => h s (mem_append_left _ hs))
      (dropAll_within fun s hs => h s (mem_append_right _ hs))

/-- Without statements that declare nothing, the others mean what they meant. -/
theorem dropIn_within : ∀ {ss : List Statement}, (∀ s ∈ standingIn ss, R s.info.id = true → s.declared x = []) →
    WithinStatements x (dropIn R ss) ss
  | [], _ => by
    rw [dropIn]
    exact fun _ => List.Subset.refl _
  | .mk kind info parts :: ss, h => by
    have rest := dropIn_within fun s hs => h s (mem_standingIn_cons.mpr (.inr (.inr hs)))
    rw [dropIn]
    split
    · rename_i hR
      exact rest.skip (h _ (mem_standingIn_cons.mpr (.inl rfl)) hR)
    · have parts := dropAll_within fun s hs => h s (mem_standingIn_cons.mpr (.inr (.inl hs)))
      obtain ⟨declared, head⟩ := parts.statement kind info
      exact head.cons declared rest

end

end Drop

/-! ## Statements of blocks -/

/-- Of what is meant, the part in the statement `s` is what it means from `w`,
where the name is not declared by `s` itself. -/
structure Statement.SeenFrom (x : String) (s : Statement) (w : View) (ms : List Meaning) : Prop where
  subset : meaningsIn x w [s] ⊆ ms
  only : ∀ m ∈ ms, 0 < countIn m.node [s] → m ∈ meaningsIn x w [s]
  foreign : w.Foreign (countIn · [s])

namespace Statement.SeenFrom

variable {s : Statement} {w : View} {ms ms' : List Meaning}

/-- What is meant elsewhere does not matter. -/
theorem append_right (h : s.SeenFrom x w ms) (hms : ∀ m ∈ ms', countIn m.node [s] = 0) :
    s.SeenFrom x w (ms ++ ms') where
  subset m hm := mem_append_left _ (h.subset hm)
  only m hm pos := by
    rcases mem_append.mp hm with hm | hm
    · exact h.only m hm pos
    · have := hms m hm
      omega
  foreign := h.foreign

theorem append_left (h : s.SeenFrom x w ms) (hms : ∀ m ∈ ms', countIn m.node [s] = 0) :
    s.SeenFrom x w (ms' ++ ms) where
  subset m hm := mem_append_right _ (h.subset hm)
  only m hm pos := by
    rcases mem_append.mp hm with hm | hm
    · have := hms m hm
      omega
    · exact h.only m hm pos
  foreign := h.foreign

end Statement.SeenFrom

theorem standing_of_named? {t : Term} (every : t.Every IsExpr IsStmt) (h : (t.named? x).isSome = true) :
    standing [t] = [] := by
  cases t with
  | expr listed kind info parts =>
    rw [Term.Every] at every
    obtain ⟨y, rfl, rfl, rfl⟩ := every.1
    cases y with
    | ident => simp [Expr.parts]
    | _ => cases h
  | group | block => cases h
  | fixed => simp

mutual

theorem Term.seenFrom {s : Statement} : ∀ {t : Term}, t.Every IsExpr IsStmt → (∀ i, t.count i ≤ 1) →
    s ∈ standing [t] → ∀ p : Plan, p.Foreign [t] → ∃ w, s.SeenFrom x w (t.meanings x p.view p.body)
  | .expr listed kind info parts, every, once, hs, p, foreign => by
    rw [Term.Every] at every
    have hs' : s ∈ standing parts := by simpa using hs
    have le : ∀ i, countAll i parts ≤ (Term.expr listed kind info parts).count i := fun i =>
      Nat.le_add_left _ _
    have once' : ∀ i, countAll i parts ≤ 1 := fun i => Nat.le_trans (le i) (once i)
    have foreign' : p.view.enter.Foreign (countAll · parts) := foreign.view.mono le
    obtain ⟨w, hw⟩ := seenFrom_terms every.2 once' hs' _ (kind.plan_foreign foreign' once')
    refine ⟨w, ?_⟩
    rw [Term.meanings]
    refine hw.append_left fun m hm => ?_
    have := useMeaning_node hm
    have := once m.node
    have := countIn_le_of_standing (u := m.node) hs'
    simp only [Term.count, countInfo?] at *
    omega
  | .group kind info parts, every, once, hs, p, foreign => by
    rw [Term.Every] at every
    have hs' : s ∈ standing parts := by simpa using hs
    have le : ∀ i, countAll i parts ≤ (Term.group kind info parts).count i := fun i =>
      Nat.le_add_left _ _
    have once' : ∀ i, countAll i parts ≤ 1 := fun i => Nat.le_trans (le i) (once i)
    rw [Term.meanings]
    exact seenFrom_terms every once' hs' _ (kind.plan_foreign (foreign.view.mono le) once')
  | .fixed .., _, _, hs, _, _ => by simp at hs
  | .block info ss, every, once, hs, p, foreign => by
    rw [Term.Every] at every
    have hs' : s ∈ standingIn ss := by simpa using hs
    have le : ∀ i, countIn i ss ≤ (Term.block info ss).count i := fun i => Nat.le_add_left _ _
    rw [Term.meanings]
    refine seenFrom_statements every (fun i => Nat.le_trans (le i) (once i)) hs' _ ?_
    rcases hbody : p.body with _ | b
    · exact foreign.view.mono le
    · exact foreign.body b hbody info ss mem_cons_self

theorem seenFrom_terms {s : Statement} : ∀ {ts : List Term}, EveryTerms IsExpr IsStmt ts →
    (∀ i, countAll i ts ≤ 1) → s ∈ standing ts → ∀ p : Plan, p.Foreign ts →
    ∃ w, s.SeenFrom x w (meaningsAll x p ts)
  | [], _, _, hs, _, _ => by simp at hs
  | t :: ts, every, once, hs, p, foreign => by
    rw [EveryTerms] at every
    have count : ∀ i, countAll i (t :: ts) = t.count i + countAll i ts := fun i => by rw [countAll]
    rw [standing_cons, mem_append] at hs
    rw [meaningsAll]
    rcases hs with hs | hs
    · obtain ⟨w, hw⟩ := Term.seenFrom every.1 (fun i => by have := once i; have := count i; omega) hs p foreign.head
      refine ⟨w, Statement.SeenFrom.append_right ?_ fun m hm => ?_⟩
      · split
        · rename_i skipped
          rw [standing_of_named? every.1 (Bool.and_eq_true_iff.mp skipped).2] at hs
          cases hs
        · exact hw
      · have := meaningsAll_node hm
        have := once m.node
        have := count m.node
        have : countIn m.node [s] ≤ countAll m.node [t] := countIn_le_of_standing hs
        simp only [countAll] at this
        omega
    · obtain ⟨w, hw⟩ := seenFrom_terms every.2 (fun i => by have := once i; have := count i; omega) hs _
        (foreign.tail once)
      refine ⟨w, hw.append_left fun m hm => ?_⟩
      split at hm
      · cases hm
      · have := Term.meanings_node hm
        have := once m.node
        have := count m.node
        have := countIn_le_of_standing (u := m.node) hs
        omega

/-- A statement of a block is seen from one place. -/
theorem seenFrom_statements {s : Statement} : ∀ {ss : List Statement},
    EveryIn IsExpr IsStmt ss → (∀ i, countIn i ss ≤ 1) → s ∈ standingIn ss → ∀ v : View,
    v.Foreign (countIn · ss) → ∃ w, s.SeenFrom x w (meaningsIn x v ss)
  | [], _, _, hs, _, _ => by simp [blocksIn] at hs
  | .mk kind info parts :: ss, every, once, hs, v, foreign => by
    rw [EveryIn] at every
    have count1 : ∀ i, countIn i [.mk kind info parts] = info.count i + countAll i parts := fun i => by
      simp [countIn]
    have count : ∀ i, countIn i (.mk kind info parts :: ss)
        = countIn i [.mk kind info parts] + countIn i ss := fun i => by
      simp [countIn]
    have split : meaningsIn x v (.mk kind info parts :: ss) = meaningsIn x v [.mk kind info parts]
          ++ meaningsIn x (v.after (Statement.declared x (.mk kind info parts))) ss := by
      rw [← singleton_append, meaningsIn_append]
      simp
    have head : ∀ m ∈ meaningsIn x v [.mk kind info parts], countIn m.node ss = 0 :=
      fun m hm => by
        have := meaningsIn_node hm
        have := once m.node
        have := count m.node
        omega
    have tail : ∀ m ∈ meaningsIn x (v.after (Statement.declared x (.mk kind info parts))) ss,
        countIn m.node [.mk kind info parts] = 0 := fun m hm => by
      have := meaningsIn_node hm
      have := once m.node
      have := count m.node
      omega
    rw [split]
    rcases mem_standingIn_cons.mp hs with rfl | hs | hs
    · have foreign1 : v.Foreign (countIn · [.mk kind info parts]) := foreign.mono fun i => by
        have := count i
        omega
      exact ⟨v, Statement.SeenFrom.append_right ⟨List.Subset.refl _, fun m hm _ => hm, foreign1⟩ tail⟩
    · have once' : ∀ i, countAll i parts ≤ 1 := fun i => by
        have := once i
        have := count i
        have := count1 i
        omega
      have foreign' : v.Foreign (countAll · parts) := foreign.mono fun i => by
        have := count i
        have := count1 i
        omega
      obtain ⟨w, hw⟩ := seenFrom_terms every.2.1 once' hs _ (kind.plan_foreign foreign' once')
      refine ⟨w, Statement.SeenFrom.append_right ?_ fun m hm => ?_⟩
      · simp only [meaningsIn, append_nil]
        show s.SeenFrom x w ([.stmt info.id v.decl] ++ _)
        refine hw.append_left fun m hm => ?_
        rw [mem_singleton.mp hm]
        have := info.count_self_pos
        have := once info.id
        have := count info.id
        have := count1 info.id
        have := countIn_le_of_standing (u := info.id) hs
        simp only [Meaning.node]
        omega
      · have := tail m hm
        have := count1 m.node
        have := countIn_le_of_standing (u := m.node) hs
        omega
    · have foreign' : (v.after (Statement.declared x (.mk kind info parts))).Foreign (countIn · ss) := by
        refine View.Foreign.after (m := (countIn · [.mk kind info parts])) ?_ (fun i => ?_) fun d hd => ?_
        · exact foreign.mono fun i => Nat.le_of_eq (count i).symm
        · exact count i ▸ once i
        · have : 0 < countAll d.id parts := Statement.declared_node hd
          have := count1 d.id
          omega
      obtain ⟨w, hw⟩ := seenFrom_statements every.2.2 (fun i => by have := once i; have := count i; omega) hs _ foreign'
      refine ⟨w, hw.append_left fun m hm => ?_⟩
      have := head m hm
      have := countIn_le_of_standingIn (u := m.node) hs
      omega

end

/-- A statement of a file. -/
theorem File.seenFrom {f : File} (once : ∀ i, f.term.count i ≤ 1) {s : Statement}
    (hs : s ∈ standing [f.term]) : ∃ w, s.SeenFrom x w (f.meanings x) :=
  Term.seenFrom f.written once hs ⟨⟨none, false⟩, false, none, false⟩ ⟨nofun, nofun⟩

end Within

end CheckHandle
