import CheckHandle.Proofs.Hygiene

/-!
# The roles of names

A name is spelled by an identifier expression that a walk comes to, or in a
place that no walk looks at: where it is declared or selected, or in a type.
Settling checks keeps names in their roles, and a copy of a handler has other
names in the first role only.
-/

namespace CheckHandle

open List

attribute [local simp] relabelAll

/-- How a name is spelled. -/
inductive Role where
  /-- By an identifier expression that a walk comes to. -/
  | visited
  /-- Where it is declared or selected, or in a type. -/
  | fixed
deriving DecidableEq

/-- The names that an expression of this kind spells itself. -/
def Kind.inRole : Role → Kind → List String
  | .visited, .ident x => [x]
  | .visited, _ => []
  | .fixed, .ident _ => []
  | .fixed, kind => (kind.spelled none).map Prod.fst

/-- The names that another construct of this kind spells itself. -/
def Kind.aside : Role → Kind → List String
  | .visited, _ => []
  | .fixed, kind => (kind.spelled none).map Prod.fst

mutual

/-- The names that a term spells in a role. -/
def Term.inRole (r : Role) : Term → List String
  | .expr _ kind _ parts => kind.inRole r ++ inRoleAll r parts
  | .group kind _ parts => kind.aside r ++ inRoleAll r parts
  | .fixed kind info parts =>
    match r with
    | .visited => []
    | .fixed => (Term.fixed kind info parts).spelled.map Prod.fst
  | .block _ ss => inRoleIn r ss

def inRoleAll (r : Role) : List Term → List String
  | [] => []
  | t :: ts => t.inRole r ++ inRoleAll r ts

def inRoleIn (r : Role) : List Statement → List String
  | [] => []
  | .mk kind _ parts :: ss => kind.aside r ++ inRoleAll r parts ++ inRoleIn r ss

end

def File.inRole (r : Role) (f : File) : List String := f.term.inRole r

def TypeExpr.names (t : TypeExpr) : List String := t.spelled.map Prod.fst

theorem inRoleAll_append (r : Role) (ts us : List Term) :
    inRoleAll r (ts ++ us) = inRoleAll r ts ++ inRoleAll r us :=
  append_of_cons rfl (fun _ _ => by simp [inRoleAll]) ts us

theorem inRoleIn_append (r : Role) (ss ts : List Statement) :
    inRoleIn r (ss ++ ts) = inRoleIn r ss ++ inRoleIn r ts :=
  append_of_cons rfl (fun ⟨_, _, _⟩ _ => by simp [inRoleIn]) ss ts

/-- What an expression spells does not depend on where it stands. -/
theorem inRole_exprTerms (r : Role) (listed : Bool) (xs : List Expr) :
    inRoleAll r (exprTerms listed xs) = inRoleAll r (exprTerms false xs) := by
  induction xs with
  | nil => rfl
  | cons x xs ih => simp only [exprTerms, inRoleAll, Term.inRole, ih]

/-! ## Settled terms -/

/-- The names of what was made for a check. -/
def Expanded.inRole (r : Role) (e : Expanded) : List String :=
  inRoleAll r (exprTerms false (e.names ++ e.uses.getD [])) ++ inRoleIn r [e.guard.statement]

/-- The name stands in what was made for some check. -/
def Ledger.Spells (l : Ledger) (r : Role) (x : String) : Prop := ∃ i e, l i = some e ∧ x ∈ e.inRole r

section Settled

variable {l : Ledger} {r : Role} {x : String}

theorem Expanded.of_inserted {e : Expanded} {ts : List Term}
    (h : x ∈ inRoleIn r (e.inserted ts)) : x ∈ e.inRole r ∨ x ∈ inRoleAll r ts := by
  unfold Expanded.inserted at h
  split at h
  · simp only [Expanded.definition, inRoleIn, inRoleAll, Term.inRole, Kind.aside, Kind.spelled,
      mem_append, append_nil] at h
    simp only [Expanded.inRole, exprTerms_append, inRoleAll_append, inRoleAll, mem_append, append_nil]
    cases r <;> simp_all <;> grind
  · cases h

theorem of_remaining {kind : Kind} {info : Info} {parts parts' : List Term}
    (h : x ∈ inRoleIn r (remaining kind info parts parts')) :
    x ∈ kind.aside r ∨ x ∈ inRoleAll r parts' := by
  unfold remaining at h
  split at h
  · cases h
  · simpa [inRoleIn] using h

mutual

/-- What stands in a settled term stood there before, or was made. -/
theorem Term.of_inRole_settle : ∀ t : Term, x ∈ inRoleAll r (t.settle l).1 ∨ x ∈ inRoleIn r (t.settle l).2 →
    x ∈ t.inRole r ∨ l.Spells r x
  | .expr listed kind info parts, h => by
    have hparts := of_inRole_settleAll parts
    rcases he : l info.id with _ | e
    · simp only [Term.settle, he, inRoleAll, Term.inRole, append_nil, mem_append] at h ⊢
      grind
    · simp only [Term.settle, he, Expanded.inPlace, inRole_exprTerms, inRoleIn_append, mem_append] at h
      have made : ∀ {y : Prop}, x ∈ e.inRole r → y ∨ l.Spells r x := fun hx => .inr ⟨info.id, e, he, hx⟩
      rcases h with h | h | h
      · refine made ?_
        simp only [Expanded.inRole, exprTerms_append, inRoleAll_append, mem_append]
        exact .inl (.inr h)
      · exact (hparts (.inr h)).imp_left fun h => by simp [Term.inRole, h]
      · rcases Expanded.of_inserted h with h | h
        · exact made h
        · exact (hparts (.inl h)).imp_left fun h => by simp [Term.inRole, h]
  | .group kind info parts, h => by
    have hparts := of_inRole_settleAll parts
    simp only [Term.settle, inRoleAll, Term.inRole, append_nil, mem_append] at h ⊢
    grind
  | .fixed kind info parts, h => by
    refine .inl ?_
    simpa [Term.settle, inRoleAll, inRoleIn] using h
  | .block info ss, h => by
    simp only [Term.settle, inRoleAll, Term.inRole, inRoleIn, append_nil, not_mem_nil, or_false] at h ⊢
    exact of_inRole_settleIn ss h

theorem of_inRole_settleAll : ∀ ts : List Term,
    x ∈ inRoleAll r (settleAll l ts).1 ∨ x ∈ inRoleIn r (settleAll l ts).2 →
    x ∈ inRoleAll r ts ∨ l.Spells r x
  | [], h => by simp [settleAll, inRoleAll, inRoleIn] at h
  | t :: ts, h => by
    have ht := Term.of_inRole_settle t
    have hts := of_inRole_settleAll ts
    simp only [settleAll, inRoleAll_append, inRoleIn_append, inRoleAll, mem_append] at h ⊢
    grind

theorem of_inRole_settleIn : ∀ ss : List Statement,
    x ∈ inRoleIn r (settleIn l ss) → x ∈ inRoleIn r ss ∨ l.Spells r x
  | [], h => by simp [settleIn, inRoleIn] at h
  | .mk kind info parts :: ss, h => by
    have hparts := of_inRole_settleAll parts
    have hss := of_inRole_settleIn ss
    have remains : _ → x ∈ kind.aside r ∨ x ∈ inRoleAll r (settleAll l parts).1 :=
      @of_remaining r x kind info parts _
    simp only [settleIn, inRoleIn_append, inRoleIn, mem_append] at h ⊢
    grind

end

theorem exprStmt_aside : Kind.exprStmt.aside r = [] := by
  cases r <;> rfl

theorem mem_remaining {kind : Kind} {info : Info} {parts parts' : List Term}
    (h : x ∈ kind.aside r ∨ x ∈ inRoleAll r parts') :
    x ∈ inRoleIn r (remaining kind info parts parts') := by
  unfold remaining
  split
  · rename_i spent
    obtain ⟨rfl, -, rfl⟩ := spent
    rw [exprStmt_aside] at h
    rcases h with h | h <;> cases h
  · simpa [inRoleIn] using h

mutual

/-- Nothing is lost but the markers. -/
theorem Term.inRole_settle (marker : x ≠ checkFunc) : ∀ t : Term,
    t.Every (IsCheck l) (fun _ _ _ => True) → x ∈ t.inRole r →
    x ∈ inRoleAll r (t.settle l).1 ∨ x ∈ inRoleIn r (t.settle l).2
  | .expr listed kind info parts, every, h => by
    rw [Term.Every] at every
    have hparts := inRole_settleAll marker parts every.2
    rw [Term.inRole, mem_append] at h
    rcases he : l info.id with _ | e
    · simp only [Term.settle, he, inRoleAll, Term.inRole, append_nil, mem_append]
      grind
    · obtain ⟨ellipsis, fn, kind', info', parts', rfl, rfl, hfn⟩ := every.1 (by rw [he]; exact nofun)
      have call : x ∉ (Kind.call ellipsis).inRole r := by cases r <;> exact nofun
      have ident : x ∉ (Kind.ident checkFunc).inRole r := by cases r <;> simp [Kind.inRole, marker]
      have list : x ∉ Kind.list.aside r := by cases r <;> exact nofun
      have moved := hparts (h.resolve_left call)
      rw [settle_checkParts hfn] at moved
      rw [settle_check he hfn]
      simp only [inRoleAll, Term.inRole, mem_append, ident, list, false_or, append_nil] at moved
      simp only [inRoleIn_append, inRoleIn, Expanded.definition, inRoleAll, Term.inRole,
        mem_append, append_nil]
      grind
  | .group kind info parts, every, h => by
    rw [Term.Every] at every
    have hparts := inRole_settleAll marker parts every
    simp only [Term.settle, inRoleAll, Term.inRole, append_nil, mem_append] at h ⊢
    grind
  | .fixed kind info parts, _, h => by
    refine .inl ?_
    simpa [Term.settle, inRoleAll] using h
  | .block info ss, every, h => by
    rw [Term.Every] at every
    refine .inl ?_
    simp only [Term.settle, inRoleAll, Term.inRole, append_nil] at h ⊢
    exact inRole_settleIn marker ss every h

theorem inRole_settleAll (marker : x ≠ checkFunc) : ∀ ts : List Term,
    EveryTerms (IsCheck l) (fun _ _ _ => True) ts → x ∈ inRoleAll r ts →
    x ∈ inRoleAll r (settleAll l ts).1 ∨ x ∈ inRoleIn r (settleAll l ts).2
  | [], _, h => by simp [inRoleAll] at h
  | t :: ts, every, h => by
    rw [EveryTerms] at every
    have ht := Term.inRole_settle marker t every.1
    have hts := inRole_settleAll marker ts every.2
    simp only [settleAll, inRoleAll_append, inRoleIn_append, inRoleAll, mem_append] at h ⊢
    grind

theorem inRole_settleIn (marker : x ≠ checkFunc) : ∀ ss : List Statement,
    EveryIn (IsCheck l) (fun _ _ _ => True) ss → x ∈ inRoleIn r ss →
    x ∈ inRoleIn r (settleIn l ss)
  | [], _, h => by simp [inRoleIn] at h
  | .mk kind info parts :: ss, every, h => by
    rw [EveryIn] at every
    have hparts := inRole_settleAll marker parts every.2.1
    have hss := inRole_settleIn marker ss every.2.2
    have remains : _ → x ∈ inRoleIn r (remaining kind info parts (settleAll l parts).1) := mem_remaining
    simp only [settleIn, inRoleIn_append, inRoleIn, mem_append] at h ⊢
    grind

end

end Settled

/-! ## Copies -/

section Relabelled

variable {φ : NodeId → NodeId}

theorem infoStart?_relabel (info : Option Info) : infoStart? (info.map (Info.relabel φ)) = infoStart? info := by
  cases info <;> rfl

mutual

/-- Other identities do not change the names. -/
theorem Term.spelled_relabel : ∀ t : Term, (t.relabel φ id).spelled = t.spelled
  | .expr _ kind info parts => by
    rw [Term.relabel, Term.spelled, Term.spelled, Kind.relabel_id, spelledAll_relabel parts]
    rfl
  | .group kind info parts | .fixed kind info parts => by
    rw [Term.relabel, Term.spelled, Term.spelled, infoStart?_relabel, spelledAll_relabel parts]
  | .block info ss => by rw [Term.relabel, Term.spelled, Term.spelled, spelledStatements_relabel ss]

theorem spelledAll_relabel : ∀ ts : List Term, spelledAll (relabelAll φ id ts) = spelledAll ts
  | [] => by rw [relabelAll]
  | t :: ts => by
    rw [relabelAll, spelledAll, spelledAll, t.spelled_relabel, spelledAll_relabel ts]

theorem spelledStatements_relabel : ∀ ss : List Statement,
    spelledStatements (relabelIn φ id ss) = spelledStatements ss
  | [] => by rw [relabelIn]
  | .mk kind info parts :: ss => by
    rw [relabelIn, spelledStatements, spelledStatements, spelledAll_relabel parts,
      spelledStatements_relabel ss]
    rfl

end

/-- What becomes of the names in a role: only identifier expressions are renamed. -/
def Role.renames (g : String → String) : Role → String → String
  | .visited => g
  | .fixed => id

theorem Kind.inRole_relabel (r : Role) (g : String → String) (kind : Kind) :
    (kind.relabel g).inRole r = (kind.inRole r).map (r.renames g) := by
  cases r with
  | visited => cases kind <;> rfl
  | fixed =>
    rw [Role.renames, map_id]
    cases kind <;> rfl

theorem Kind.aside_renames (r : Role) (g : String → String) (kind : Kind) :
    (kind.aside r).map (r.renames g) = kind.aside r := by
  cases r with
  | visited => rfl
  | fixed => exact map_id _

variable {g : String → String} {r : Role}

mutual

/-- Identifier expressions take their new names, all other names are kept. -/
theorem Term.inRole_relabel : ∀ t : Term, (t.relabel φ g).inRole r = (t.inRole r).map (r.renames g)
  | .expr _ kind info parts => by
    simp only [Term.relabel, Term.inRole, Kind.inRole_relabel, inRoleAll_relabel parts, map_append]
  | .group kind info parts => by
    simp only [Term.relabel, Term.inRole, inRoleAll_relabel parts, map_append, Kind.aside_renames]
  | .fixed kind info parts => by
    have same := (Term.fixed kind info parts).spelled_relabel (φ := φ)
    rw [Term.relabel] at same
    cases r with
    | visited => simp only [Term.relabel, Term.inRole, map_nil]
    | fixed => simp only [Term.relabel, Term.inRole, same, Role.renames, map_id]
  | .block info ss => by simp only [Term.relabel, Term.inRole, inRoleIn_relabel ss]

theorem inRoleAll_relabel : ∀ ts : List Term,
    inRoleAll r (relabelAll φ g ts) = (inRoleAll r ts).map (r.renames g)
  | [] => by simp only [relabelAll, inRoleAll, map_nil]
  | t :: ts => by
    simp only [relabelAll, inRoleAll, t.inRole_relabel, inRoleAll_relabel ts, map_append]

theorem inRoleIn_relabel : ∀ ss : List Statement,
    inRoleIn r (relabelIn φ g ss) = (inRoleIn r ss).map (r.renames g)
  | [] => by simp only [relabelIn, inRoleIn, map_nil]
  | .mk kind info parts :: ss => by
    simp only [relabelIn, inRoleIn, inRoleAll_relabel parts, inRoleIn_relabel ss,
      map_append, Kind.aside_renames]

end

end Relabelled

/-- `ss'` are the statements `ss` with the names `g y` for `y`, whatever the
identities. -/
def AreLike (g : String → String) (ss ss' : List Stmt) : Prop :=
  shapeIn (statements ss') = relabelIn (fun _ => 0) g (statements ss)

/-- The same for one statement. -/
structure Stmt.IsLike (g : String → String) (s s' : Stmt) : Prop where
  kind : s'.kind = s.kind
  info : s'.info.shape = s.info.shape
  parts : shapeAll s'.parts = relabelAll (fun _ => 0) g s.parts

section Like

variable {g : String → String} {s s' : Stmt} {ss ss' : List Stmt}

theorem areLike_nil : AreLike g [] ss' ↔ ss' = [] := by
  cases ss' <;> simp [AreLike, statements, relabelIn]

theorem areLike_cons : AreLike g (s :: ss) ss' ↔ ∃ t ts, ss' = t :: ts ∧ s.IsLike g t ∧ AreLike g ss ts := by
  cases ss' with
  | nil => simp [AreLike, statements, relabelIn]
  | cons t ts =>
    simp only [AreLike, statements, relabelIn, List.cons.injEq, Statement.mk.injEq]
    constructor
    · rintro ⟨⟨hkind, hinfo, hparts⟩, hss⟩
      exact ⟨t, ts, ⟨rfl, rfl⟩, ⟨hkind, hinfo, hparts⟩, hss⟩
    · rintro ⟨_, _, ⟨rfl, rfl⟩, like, hss⟩
      exact ⟨⟨like.kind, like.info, like.parts⟩, hss⟩

theorem AreLike.append {ts ts' : List Stmt} (h : AreLike g ss ss') (h' : AreLike g ts ts') :
    AreLike g (ss ++ ts) (ss' ++ ts') := by
  unfold AreLike shapeIn at *
  rw [statements_append, statements_append, relabelIn_append, relabelIn_append, h, h']

/-- Fixed names are those of the statements, and identifiers have new names. -/
theorem AreLike.inRole (h : AreLike g ss ss') (r : Role) :
    inRoleIn r (statements ss') = (inRoleIn r (statements ss)).map (r.renames g) := by
  have same := congrArg (inRoleIn r) (show shapeIn _ = _ from h)
  have kept : r.renames id = id := by cases r <;> rfl
  rwa [inRoleIn_relabel, inRoleIn_relabel, kept, map_id] at same

theorem AreLike.fixed (h : AreLike g ss ss') :
    inRoleIn .fixed (statements ss') = inRoleIn .fixed (statements ss) :=
  (h.inRole .fixed).trans (map_id _)

theorem AreLike.visited (h : AreLike g ss ss') :
    inRoleIn .visited (statements ss') = (inRoleIn .visited (statements ss)).map g :=
  h.inRole .visited

/-- A call of a plain name, told by its parts. -/
theorem Expr.argsOf?_isSome_iff {x : Expr} {name : String} : (x.argsOf? name).isSome = true ↔
    ∃ ellipsis info parts rest, x.kind = .call ellipsis ∧ x.parts = .expr false (.ident name) info parts :: rest := by
  constructor
  · intro h
    unfold Expr.argsOf? at h
    split at h
    · split at h
      · rename_i fn args ellipsis heq
        cases eq_of_beq heq
        exact ⟨_, _, _, _, rfl, rfl⟩
      · cases h
    · cases h
  · rintro ⟨ellipsis, info, parts, rest, hkind, hparts⟩
    cases x <;> cases hkind
    rename_i fn args
    cases fn <;> cases hparts
    simp [Expr.argsOf?]

theorem relabel_eq_ident {kind : Kind} {y : String} (h : kind.relabel g = .ident y) :
    ∃ x, kind = .ident x ∧ g x = y := by
  cases kind <;> cases h
  exact ⟨_, rfl, rfl⟩

/-- Calls of a name that `g` leaves alone stay calls of it. -/
theorem argsOf?_isSome_of_like {name : String} (keeps : ∀ y, g y = name ↔ y = name) {x x' : Expr}
    (hkind : x'.kind = x.kind.relabel g) (hparts : shapeAll x'.parts = relabelAll (fun _ => 0) g x.parts) :
    (x'.argsOf? name).isSome = (x.argsOf? name).isSome := by
  rw [Bool.eq_iff_iff, Expr.argsOf?_isSome_iff, Expr.argsOf?_isSome_iff]
  constructor
  · rintro ⟨ellipsis, info, parts, rest, hcall, hp⟩
    rw [hcall] at hkind
    have call : x.kind = .call ellipsis := by
      cases hk : x.kind <;> rw [hk] at hkind <;> cases hkind
      rfl
    rw [hp] at hparts
    rcases hq : x.parts with _ | ⟨t, ts⟩
    · rw [hq] at hparts
      simp at hparts
    rw [hq] at hparts
    cases t with
    | expr listed kind info' parts' =>
      simp only [relabelAll, Term.relabel, List.cons.injEq, Term.expr.injEq, Kind.relabel_id] at hparts
      obtain ⟨⟨rfl, hident, -, -⟩, -⟩ := hparts
      obtain ⟨y, rfl, hy⟩ := relabel_eq_ident hident.symm
      obtain rfl := (keeps y).mp hy
      exact ⟨ellipsis, info', parts', ts, call, rfl⟩
    | _ => simp [Term.relabel] at hparts
  · rintro ⟨ellipsis, info, parts, rest, hcall, hp⟩
    rw [hcall] at hkind
    rw [hp] at hparts
    rcases hq : x'.parts with _ | ⟨t, ts⟩
    · rw [hq] at hparts
      simp at hparts
    rw [hq] at hparts
    cases t with
    | expr listed kind info' parts' =>
      have same : (Kind.ident name).relabel g = .ident name := congrArg Kind.ident ((keeps name).mpr rfl)
      simp only [relabelAll, Term.relabel, List.cons.injEq, Term.expr.injEq, Kind.relabel_id, same] at hparts
      obtain ⟨⟨rfl, rfl, -, -⟩, -⟩ := hparts
      exact ⟨ellipsis, info', parts', ts, hkind, rfl⟩
    | _ => simp [Term.relabel] at hparts

/-- Whether a call aborts does not change. -/
def KeepsPanic (g : String → String) : Prop := ∀ y, g y = "panic" ↔ y = "panic"

attribute [local simp] Term.absent Term.relabel relabelAll Kind.relabel_id Block.term Stmt.parts stmtTerm?
  clauseTerms Stmt.trim trimClauses

mutual

/-- What is like a terminating statement terminates. -/
theorem Stmt.IsLike.isTerminating (panics : KeepsPanic g) : ∀ {s s' : Stmt}, s.IsLike g s' →
    s'.isTerminating = s.isTerminating
  | .expr _ x, s', ⟨hkind, hinfo, hparts⟩ => by
    cases s' <;> cases hkind
    simp at hparts
    exact argsOf?_isSome_of_like panics hparts.1 hparts.2.2
  | .block _ ⟨_, stmts⟩, s', ⟨hkind, hinfo, hparts⟩ => by
    cases s' <;> cases hkind
    rename_i body
    obtain ⟨inner, stmts'⟩ := body
    simp at hparts
    simp only [Stmt.isTerminating, anyTerminating_of_like panics hparts.2]
  | .cond _ _ _ ⟨_, stmts⟩ none, s', ⟨hkind, hinfo, hparts⟩ => by
    cases s' <;> cases hkind
    rename_i init test body other
    cases other with
    | none =>
      obtain ⟨inner, stmts'⟩ := body
      simp only [Stmt.isTerminating]
    | some other =>
      simp at hparts
  | .cond _ _ _ ⟨_, stmts⟩ (some other), s', ⟨hkind, hinfo, hparts⟩ => by
    cases s' <;> cases hkind
    rename_i init test body other'
    obtain ⟨inner, stmts'⟩ := body
    cases other' with
    | none => simp at hparts
    | some other' =>
      simp at hparts
      obtain ⟨-, -, ⟨-, hstmts⟩, hk, hi, hp⟩ := hparts
      have like : other.IsLike g other' := ⟨hk, hi, hp⟩
      simp only [Stmt.isTerminating, anyTerminating_of_like panics hstmts, like.isTerminating panics]
  | .assign .., s', ⟨hkind, _, _⟩ | .incDec .., s', ⟨hkind, _, _⟩ | .decl .., s', ⟨hkind, _, _⟩
  | .ret .., s', ⟨hkind, _, _⟩ | .loop .., s', ⟨hkind, _, _⟩ | .range .., s', ⟨hkind, _, _⟩
  | .switch .., s', ⟨hkind, _, _⟩ | .go .., s', ⟨hkind, _, _⟩ | .defer .., s', ⟨hkind, _, _⟩
  | .branch .., s', ⟨hkind, _, _⟩ => by
    cases s' <;> cases hkind
    rfl

theorem anyTerminating_of_like (panics : KeepsPanic g) : ∀ {ss ss' : List Stmt}, AreLike g ss ss' →
    anyTerminating ss' = anyTerminating ss
  | [], ss', h => by rw [areLike_nil.mp h]
  | s :: ss, ss', h => by
    obtain ⟨t, ts, rfl, like, more⟩ := areLike_cons.mp h
    simp only [anyTerminating, like.isTerminating panics, anyTerminating_of_like panics more]

end

mutual

/-- Trimming does not look at other names than `panic`. -/
theorem Stmt.IsLike.trim (panics : KeepsPanic g) : ∀ {s s' : Stmt}, s.IsLike g s' → s.trim.IsLike g s'.trim
  | .block _ ⟨_, stmts⟩, s', ⟨hkind, hinfo, hparts⟩ => by
    cases s' <;> cases hkind
    rename_i body
    obtain ⟨inner, stmts'⟩ := body
    refine ⟨rfl, hinfo, ?_⟩
    simp at hparts ⊢
    exact ⟨hparts.1, trimStmts_like panics hparts.2⟩
  | .cond _ _ _ ⟨_, stmts⟩ none, s', ⟨hkind, hinfo, hparts⟩ => by
    cases s' <;> cases hkind
    rename_i init test body other
    obtain ⟨inner, stmts'⟩ := body
    cases other with
    | some other => simp at hparts
    | none =>
      refine ⟨rfl, hinfo, ?_⟩
      simp at hparts ⊢
      obtain ⟨hinit, htest, hinner, hstmts⟩ := hparts
      exact ⟨hinit, htest, hinner, trimStmts_like panics hstmts⟩
  | .cond _ _ _ ⟨_, stmts⟩ (some other), s', ⟨hkind, hinfo, hparts⟩ => by
    cases s' <;> cases hkind
    rename_i init test body other'
    obtain ⟨inner, stmts'⟩ := body
    cases other' with
    | none => simp at hparts
    | some other' =>
      refine ⟨rfl, hinfo, ?_⟩
      simp at hparts ⊢
      obtain ⟨hinit, htest, ⟨hinner, hstmts⟩, hk, hi, hp⟩ := hparts
      have like : other.IsLike g other' := ⟨hk, hi, hp⟩
      have trimmed := like.trim panics
      exact ⟨hinit, htest, ⟨hinner, trimStmts_like panics hstmts⟩, trimmed.kind, trimmed.info, trimmed.parts⟩
  | .loop _ _ _ _ ⟨_, stmts⟩, s', ⟨hkind, hinfo, hparts⟩ => by
    cases s' <;> cases hkind
    rename_i init test post body
    obtain ⟨inner, stmts'⟩ := body
    refine ⟨rfl, hinfo, ?_⟩
    simp at hparts ⊢
    obtain ⟨hinit, htest, hpost, hinner, hstmts⟩ := hparts
    exact ⟨hinit, htest, hpost, hinner, trimStmts_like panics hstmts⟩
  | .range _ _ _ _ _ ⟨_, stmts⟩, s', ⟨hkind, hinfo, hparts⟩ => by
    cases s' <;> cases hkind
    rename_i key value x body
    obtain ⟨inner, stmts'⟩ := body
    refine ⟨rfl, hinfo, ?_⟩
    simp at hparts ⊢
    obtain ⟨htargets, hx, hinner, hstmts⟩ := hparts
    exact ⟨htargets, hx, hinner, trimStmts_like panics hstmts⟩
  | .switch _ _ _ clauses, s', ⟨hkind, hinfo, hparts⟩ => by
    cases s' <;> cases hkind
    rename_i init tag clauses'
    refine ⟨rfl, hinfo, ?_⟩
    simp at hparts ⊢
    obtain ⟨hinit, htag, hclauses⟩ := hparts
    exact ⟨hinit, htag, trimClauses_like panics hclauses⟩
  | .expr .., s', ⟨hkind, hinfo, hparts⟩ | .assign .., s', ⟨hkind, hinfo, hparts⟩
  | .incDec .., s', ⟨hkind, hinfo, hparts⟩ | .decl .., s', ⟨hkind, hinfo, hparts⟩
  | .ret .., s', ⟨hkind, hinfo, hparts⟩ | .go .., s', ⟨hkind, hinfo, hparts⟩
  | .defer .., s', ⟨hkind, hinfo, hparts⟩ | .branch .., s', ⟨hkind, hinfo, hparts⟩ => by
    cases s' <;> cases hkind
    exact ⟨rfl, hinfo, hparts⟩

theorem trimStmts_like (panics : KeepsPanic g) : ∀ {ss ss' : List Stmt}, AreLike g ss ss' →
    AreLike g (trimStmts ss) (trimStmts ss')
  | [], ss', h => by
    rw [areLike_nil.mp h, trimStmts]
    exact areLike_nil.mpr rfl
  | s :: ss, ss', h => by
    obtain ⟨t, ts, rfl, like, more⟩ := areLike_cons.mp h
    have trimmed := like.trim panics
    simp only [trimStmts, trimmed.isTerminating panics]
    split
    · exact areLike_cons.mpr ⟨_, [], rfl, trimmed, areLike_nil.mpr rfl⟩
    · exact areLike_cons.mpr ⟨_, _, rfl, trimmed, trimStmts_like panics more⟩

theorem trimClauses_like (panics : KeepsPanic g) : ∀ {cs cs' : List CaseClause},
    shapeAll (clauseTerms cs') = relabelAll (fun _ => 0) g (clauseTerms cs) →
    shapeAll (clauseTerms (trimClauses cs')) = relabelAll (fun _ => 0) g (clauseTerms (trimClauses cs))
  | [], cs', h => by
    cases cs' with
    | nil => rfl
    | cons c cs' => cases c <;> simp at h
  | .case _ values ⟨_, stmts⟩ :: cs, cs', h => by
    cases cs' with
    | nil => simp at h
    | cons c cs' =>
      cases c with
      | default => simp at h
      | case info values' body =>
        obtain ⟨inner, stmts'⟩ := body
        simp at h ⊢
        obtain ⟨⟨hinfo, hvalues, hinner, hstmts⟩, more⟩ := h
        exact ⟨⟨hinfo, hvalues, hinner, trimStmts_like panics hstmts⟩, trimClauses_like panics more⟩
  | .default _ ⟨_, stmts⟩ :: cs, cs', h => by
    cases cs' with
    | nil => simp at h
    | cons c cs' =>
      cases c with
      | case => simp at h
      | default info body =>
        obtain ⟨inner, stmts'⟩ := body
        simp at h ⊢
        obtain ⟨⟨hinfo, hinner, hstmts⟩, more⟩ := h
        exact ⟨⟨hinfo, hinner, trimStmts_like panics hstmts⟩, trimClauses_like panics more⟩

end

end Like

end CheckHandle
