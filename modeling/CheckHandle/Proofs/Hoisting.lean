import CheckHandle.Proofs.Meaning
import CheckHandle.Proofs.Underway

/-!
# Names in hoisted operands

The operand of an expanded check is resolved before the statement of the check,
and all else in its own place. So a name means after the passes what it meant
before, unless its declaration stands in the statement of an expanded check
around it, outside the operand.
-/

namespace CheckHandle

open List

variable {listed : Bool} {kind : Kind} {info : Info} {e : Expanded} {r : Option NodeId} {v : View}
  {ds : List Declaration} {ss : List Statement} {parts : List Term}

/-- If a check stands here that `l` expands, it is a call with one argument. -/
def IsCheck (l : Ledger) (kind : Kind) (info : Info) (parts : List Term) : Prop :=
  l info.id ≠ none → ∃ ellipsis fn kind' info' parts', kind = .call ellipsis ∧
    parts = [.expr false (.ident checkFunc) fn [], .group .list none [.expr true kind' info' parts']] ∧ l fn.id = none

/-- What was made does not declare or use the name `x`, apart from what a guard
does inside. -/
structure Ledger.Hides (l : Ledger) (x : String) : Prop where
  names : ∀ {i e}, l i = some e → ∀ y ∈ e.names ++ e.uses.getD [], ∃ name, y.ident? = some name ∧ name ≠ x
  guard : ∀ {i e}, l i = some e → e.guard.kind = .cond
  marker : checkFunc ≠ x

theorem Expr.ident?_eq_some {y : Expr} {name : String} (h : y.ident? = some name) : ∃ info, y = .ident info name := by
  cases y <;> cases h
  exact ⟨_, rfl⟩

section Declared

variable {l : Ledger} {x : String}

/-- Other identifiers do not concern a name. -/
theorem exprTerms_hidden {ys : List Expr} (h : ∀ y ∈ ys, ∃ name, y.ident? = some name ∧ name ≠ x) :
    declaredAll x (exprTerms listed ys) = [] ∧
    (exprTerms listed ys).filterMap (Term.named? x) = [] := by
  induction ys with
  | nil => simp [exprTerms, declaredAll]
  | cons y ys ih =>
    obtain ⟨name, hy, hne⟩ := h y mem_cons_self
    obtain ⟨info, rfl⟩ := Expr.ident?_eq_some hy
    obtain ⟨ih1, ih2⟩ := ih fun y hy => h y (mem_cons_of_mem _ hy)
    simp [exprTerms, declaredAll, Term.declared, Term.named?, Expr.kind, hne, ih1, ih2]

theorem settle_checkParts {fn : Info} (hfn : l fn.id = none) (operand : Term) :
    settleAll l [.expr false (.ident checkFunc) fn [], .group .list none [operand]]
      = ([.expr false (.ident checkFunc) fn [], .group .list none (operand.settle l).1], (operand.settle l).2) := by
  simp [Term.settle, settleAll, hfn]

/-- What an expanded check becomes. -/
theorem settle_check {fn : Info} {operand : Term} (he : l info.id = some e) (hfn : l fn.id = none) :
    (Term.expr listed kind info [.expr false (.ident checkFunc) fn [], .group .list none [operand]]).settle l
      = (e.inPlace listed, (operand.settle l).2
        ++ [e.definition (.group .list none (operand.settle l).1), e.guard.statement]) := by
  simp [Term.settle, he, settle_checkParts hfn, Expanded.inserted]

theorem filterMap_named?_settle (hides : l.Hides x) : ∀ ts : List Term, EveryTerms (IsCheck l) (fun _ _ _ => True) ts →
    (settleAll l ts).1.filterMap (Term.named? x) = ts.filterMap (Term.named? x)
  | [], _ => by simp [settleAll]
  | t :: ts, h => by
    rw [EveryTerms] at h
    rw [settleAll, filterMap_append, filterMap_named?_settle hides ts h.2, ← singleton_append, filterMap_append]
    congr 1
    cases t with
    | expr listed kind info parts =>
      rw [Term.settle]
      rcases he : l info.id with _ | e
      · simp only [filterMap_cons, filterMap_nil, Term.named?_expr x listed kind info parts (settleAll l parts).1]
      · rw [Term.Every] at h
        obtain ⟨ellipsis, _, _, _, _, rfl, -⟩ := h.1.1 (by rw [he]; exact nofun)
        exact (exprTerms_hidden fun y hy => hides.names he y (mem_append_right _ hy)).2
    | group kind info parts =>
      rw [Term.settle]
      rfl
    | fixed kind info parts => rw [Term.settle]
    | block info ss =>
      rw [Term.settle]
      rfl

theorem definition_declared (hides : l.Hides x) {i : NodeId} (he : l i = some e) (operand : List Term) : (e.definition (.group .list none operand)).declared x = [] := by
  have hnames : (exprTerms false e.names).filterMap (Term.named? x) = [] :=
    (exprTerms_hidden fun y hy => hides.names he y (mem_append_left _ hy)).2
  simp [Expanded.definition, Statement.declared, Statement.kind, Statement.parts, Kind.exports,
    declaredAll, Term.declared, hnames]

theorem guard_declared (hides : l.Hides x) {i : NodeId} (he : l i = some e) : e.guard.statement.declared x = [] := by
  simp [Statement.declared, Stmt.statement, Statement.kind, hides.guard he, Kind.exports]

mutual

/-- Settling leaves the declarations of a name alone. -/
theorem Term.declared_settle (hides : l.Hides x) : ∀ t : Term, t.Every (IsCheck l) (fun _ _ _ => True) →
    declaredAll x (t.settle l).1 = t.declared x ∧ declaredIn x (t.settle l).2 = []
  | .expr listed kind info parts, h => by
    rw [Term.Every] at h
    obtain ⟨-, hbefore⟩ := declaredAll_settle hides parts h.2
    rcases he : l info.id with _ | e
    · simp [Term.settle, he, declaredAll, Term.declared, hbefore]
    · obtain ⟨ellipsis, fn, kind', info', parts', rfl, rfl, hfn⟩ := h.1 (by rw [he]; exact nofun)
      have hplace : declaredAll x (e.inPlace listed) = [] :=
        (exprTerms_hidden fun y hy => hides.names he y (mem_append_right _ hy)).1
      rw [settle_checkParts hfn] at hbefore
      rw [settle_check he hfn, declaredIn_append, hbefore]
      refine ⟨by rw [hplace, Term.declared], ?_⟩
      simp [declaredIn, definition_declared hides he, guard_declared hides he]
  | .group kind info parts, h => by
    rw [Term.Every] at h
    obtain ⟨hparts, hbefore⟩ := declaredAll_settle hides parts h
    refine ⟨?_, by rw [Term.settle]; exact hbefore⟩
    simp only [Term.settle, declaredAll, Term.declared, hparts, append_nil, filterMap_named?_settle hides parts h]
  | .fixed kind info parts, _ => by simp [Term.settle, declaredAll, declaredIn]
  | .block info ss, _ => by simp [Term.settle, declaredAll, Term.declared, declaredIn]

theorem declaredAll_settle (hides : l.Hides x) : ∀ ts : List Term, EveryTerms (IsCheck l) (fun _ _ _ => True) ts →
    declaredAll x (settleAll l ts).1 = declaredAll x ts ∧ declaredIn x (settleAll l ts).2 = []
  | [], _ => by simp [settleAll, declaredAll, declaredIn]
  | t :: ts, h => by
    rw [EveryTerms] at h
    obtain ⟨h1, h2⟩ := t.declared_settle hides h.1
    obtain ⟨h3, h4⟩ := declaredAll_settle hides ts h.2
    simp only [settleAll, declaredAll, declaredAll_append, declaredIn_append, h1, h2,
      h3, h4, append_nil, and_self]

end

end Declared

/-! ## Views before and after -/

/-- What a name meant is what it means now, unless that has been left behind. -/
def Shifted (behind : NodeId → Prop) (decl decl' : Option NodeId) : Prop :=
  decl' = decl ↔ ∀ d, decl = some d → ¬ behind d

theorem Shifted.congr {H H' : NodeId → Prop} {r' : Option NodeId} (h : Shifted H r r')
    (hiff : ∀ d, r = some d → (H d ↔ H' d)) : Shifted H' r r' := by
  unfold Shifted at h ⊢
  rw [h]
  exact forall_congr' fun d => imp_congr_right fun hd => not_congr (hiff d hd)

theorem Shifted.refl {H : NodeId → Prop} (h : ∀ d, r = some d → ¬ H d) : Shifted H r r := iff_of_true rfl h

structure View.Shifted (H : NodeId → Prop) (v v' : View) : Prop where
  inner : v'.inner = v.inner
  decl : CheckHandle.Shifted H v.decl v'.decl

/-- A name does not mean one of these nodes. -/
def View.Foreign (v : View) (occurs : NodeId → Nat) : Prop := ∀ d, v.decl = some d → occurs d = 0

theorem View.Foreign.mono {m n : NodeId → Nat} (h : v.Foreign n) (le : ∀ i, m i ≤ n i) : v.Foreign m := fun d hd =>
  Nat.le_zero.mp (h d hd ▸ le d)

/-- Declarations are other nodes than those after them. -/
theorem View.Foreign.after {m n : NodeId → Nat} (h : v.Foreign fun i => m i + n i) (once : ∀ i, m i + n i ≤ 1)
    (hds : ∀ d ∈ ds, 0 < m d.id) : (v.after ds).Foreign n := by
  intro d hd
  rcases v.after_decl ds with hv | ⟨e, he, hv⟩
  · have : m d + n d = 0 := h d (hv ▸ hd)
    omega
  · cases hv.symm.trans hd
    have := hds e he
    have := once e.id
    omega

namespace View.Shifted

variable {H : NodeId → Prop} {v' : View}

theorem enter (h : v.Shifted H v') : v.enter.Shifted H v'.enter := ⟨rfl, h.decl⟩

theorem after (h : v.Shifted H v') (hds : ∀ d ∈ ds, ¬ H d.id) : (v.after ds).Shifted H (v'.after ds) := by
  induction ds generalizing v v' with
  | nil => exact h
  | cons d ds ih =>
    suffices declared : (v.declare d).Shifted H (v'.declare d) from
      ih declared fun e he => hds e (mem_cons_of_mem _ he)
    unfold View.declare
    rw [h.inner]
    split
    · exact h
    · refine ⟨rfl, .refl fun e he => ?_⟩
      cases he
      exact hds d mem_cons_self

end View.Shifted

structure Plan.Shifted (H : NodeId → Prop) (p p' : Plan) : Prop where
  view : p.view.Shifted H p'.view
  inTurn : p'.inTurn = p.inTurn
  skip : p'.skip = p.skip
  body : p.body = none ∧ p'.body = none ∨ ∃ b b', p.body = some b ∧ p'.body = some b' ∧ b.Shifted H b'

variable {H : NodeId → Prop} {p p' : Plan} {v' : View} {x : String} {ts : List Term}
  {t : Term}

theorem Plan.Shifted.next (h : p.Shifted H p') (hds : ∀ d ∈ ds, ¬ H d.id) : (p.next ds).Shifted H (p'.next ds) := by
  unfold Plan.next
  rw [h.inTurn]
  split
  · exact ⟨h.view.after hds, rfl, h.skip, h.body⟩
  · exact h

theorem Kind.plan_shifted (kind : Kind) {parts' : List Term} (h : v.Shifted H v')
    (hparts : declaredAll x parts' = declaredAll x parts)
    (hds : ∀ d ∈ declaredAll x parts, ¬ H d.id) :
    (kind.plan x parts v).Shifted H (kind.plan x parts' v') := by
  unfold Kind.plan
  rw [hparts]
  split
  · exact ⟨h.enter, rfl, rfl, .inl ⟨rfl, rfl⟩⟩
  · exact ⟨h.enter, rfl, rfl, .inl ⟨rfl, rfl⟩⟩
  · exact ⟨h.enter, rfl, rfl, .inl ⟨rfl, rfl⟩⟩
  · exact ⟨h.enter, rfl, rfl, .inr ⟨_, _, rfl, rfl, (h.enter.after hds).enter⟩⟩
  · exact ⟨h, rfl, rfl, .inr ⟨_, _, rfl, rfl, h.enter.after hds⟩⟩
  · exact ⟨h, rfl, rfl, .inr ⟨_, _, rfl, rfl, h.enter.after hds⟩⟩
  · exact ⟨h, rfl, by rw [h.inner], .inl ⟨rfl, rfl⟩⟩
  all_goals exact ⟨h, rfl, rfl, .inl ⟨rfl, rfl⟩⟩

/-- Parts of a construct do not stand for what a name means to them. -/
structure Plan.Foreign (p : Plan) (ts : List Term) : Prop where
  view : p.view.Foreign (countAll · ts)
  body : ∀ b, p.body = some b → ∀ info ss, .block info ss ∈ ts → b.Foreign (countIn · ss)

theorem Plan.view_next (p : Plan) (ds : List Declaration) :
    (p.next ds).view = p.view ∨ (p.next ds).view = p.view.after ds := by
  unfold Plan.next
  split
  · exact .inr rfl
  · exact .inl rfl

theorem Plan.body_next (p : Plan) (ds : List Declaration) : (p.next ds).body = p.body := by
  unfold Plan.next
  split <;> rfl

theorem Plan.Foreign.head (h : p.Foreign (t :: ts)) : p.Foreign [t] where
  view := h.view.mono fun i => by
    simp only [countAll]
    omega
  body b hb info ss hmem := h.body b hb info ss (by
    rw [mem_singleton] at hmem
    rw [hmem]
    exact mem_cons_self)

theorem Plan.Foreign.tail (h : p.Foreign (t :: ts)) (once : ∀ i, countAll i (t :: ts) ≤ 1) :
    (p.next (t.declared x)).Foreign ts where
  view := by
    rcases p.view_next (t.declared x) with hview | hview <;> rw [hview]
    · exact h.view.mono fun i => Nat.le_add_left _ _
    · exact View.Foreign.after h.view once fun d hd => Term.declared_node hd
  body b hb info ss hmem := by
    rw [Plan.body_next] at hb
    exact h.body b hb info ss (mem_cons_of_mem _ hmem)

/-- A block among the parts is no part that declares. -/
theorem countIn_eq_zero_of_declared {d : Declaration} (hd : d ∈ declaredAll x ts)
    (hss : .block info ss ∈ ts) (once : ∀ i, countAll i ts ≤ 1) : countIn d.id ss = 0 := by
  induction ts with
  | nil => cases hss
  | cons t ts ih =>
    rw [declaredAll, mem_append] at hd
    have hcount := once d.id
    rw [countAll] at hcount
    rcases hd with hd | hd <;> rcases mem_cons.mp hss with rfl | hss
    · simp [Term.declared] at hd
    · have := Term.declared_node hd
      have : countIn d.id ss ≤ countAll d.id ts :=
        countIn_le_countAll (b := (info, ss)) (mem_blocksAll hss)
      omega
    · have := declaredAll_node hd
      rw [Term.count] at hcount
      omega
    · refine ih hd hss fun i => ?_
      have := once i
      rw [countAll] at this
      omega

theorem Kind.plan_foreign (kind : Kind) (h : v.Foreign (countAll · parts)) (once : ∀ i, countAll i parts ≤ 1) :
    (kind.plan x parts v).Foreign parts := by
  have bodies : ∀ info ss, .block info ss ∈ parts →
      (v.enter.after (declaredAll x parts)).Foreign (countIn · ss) := by
    intro info ss hss d hd
    rcases v.enter.after_decl (declaredAll x parts) with hv | ⟨e, he, hv⟩
    · have : countAll d parts = 0 := h d (hv.symm.trans hd)
      show countIn d ss = 0
      have : countIn d ss ≤ countAll d parts :=
        countIn_le_countAll (b := (info, ss)) (mem_blocksAll hss)
      omega
    · cases hv.symm.trans hd
      exact countIn_eq_zero_of_declared he hss once
  unfold Kind.plan
  split
  case h_4 | h_5 | h_6 =>
    refine ⟨h, fun b hb info ss hss => ?_⟩
    cases hb
    exact bodies info ss hss
  all_goals exact ⟨h, nofun⟩

/-- What blocks see that are parts of shifted constructs. -/
theorem Plan.Shifted.getD_body (h : p.Shifted H p') :
    (p.body.getD p.view.enter).Shifted H (p'.body.getD p'.view.enter) := by
  rcases h.body with ⟨hb, hb'⟩ | ⟨b, b', hb, hb', shifted⟩ <;> rw [hb, hb']
  · exact h.view.enter
  · exact shifted

theorem useMeaning_shifted {info : Option Info} {u : NodeId} (h : v.Shifted H v')
    (hu : .use u r ∈ useMeaning x kind info v) : ∃ r', .use u r' ∈ useMeaning x kind info v' ∧ Shifted H r r' := by
  unfold useMeaning at hu ⊢
  split at hu
  · split at hu
    · rename_i uses
      cases mem_singleton.mp hu
      exact ⟨v'.decl, by rw [if_pos uses]; exact mem_singleton_self _, h.decl⟩
    · cases hu
  · cases hu

/-- What stays as it is, seen from elsewhere: what the name meant outside becomes
what it means there now, and what is declared inside stays. -/
theorem Term.meanings_shifted {u : NodeId} (h : v.Shifted H v') (foreign : v.Foreign (countAll · [t]))
    (inside : ∀ d, 0 < countAll d [t] → ¬ H d) (hu : .use u r ∈ t.meanings x v none) :
    ∃ r', .use u r' ∈ t.meanings x v' none ∧ Shifted H r r' := by
  let ρ : Option NodeId → Option NodeId := fun r => if r = v.decl then v'.decl else r
  have count : ∀ d, countAll d [t] = t.count d := fun d => by simp [countAll]
  have kept : ∀ d, 0 < t.count d → ρ (some d) = some (id d) := fun d hd => if_neg fun hv => by
    have : countAll d [t] = 0 := foreign d hv.symm
    rw [count] at this
    omega
  have view : v.carry ρ = v' := by
    obtain ⟨decl, inner⟩ := v'
    simp [View.carry, ρ, show inner = v.inner from h.inner]
  have carried := t.meanings_carry (g := id) (x := x) (fun _ => .rfl) kept v none
  rw [view, t.relabel_id] at carried
  refine ⟨ρ r, ?_, ?_⟩
  · rw [show t.meanings x v' none = _ from carried]
    exact mem_map_of_mem hu
  · by_cases hr : r = v.decl
    · rw [show ρ r = v'.decl from if_pos hr, hr]
      exact h.decl
    · rw [show ρ r = r from if_neg hr]
      refine .refl fun d hd => inside d ?_
      have planned : .use u r ∈ meaningsAll x { view := v } [t] := by simpa [meaningsAll] using hu
      rcases meaningsAll_decl rfl planned with hv | ⟨e, he, pos⟩
      · exact absurd hv hr
      · cases hd.symm.trans he
        exact pos

/-! ## What is left behind -/

section Left

variable (l : Ledger) (K : NodeId → Prop) (u d : NodeId)

/-- The node `u` stands in the operand of an expanded check, and `d` in the
statement of the check but not in the operand. -/
def LeftIn (ss : List Statement) : Prop :=
  ∃ s ∈ ss, ∃ node ∈ nodesAll s.parts, l node.1.id ≠ none ∧ 0 < countAll u node.2 ∧
    0 < countIn d [s] ∧ countAll d node.2 = 0

/-- The same among parts of a statement with the nodes `K`. -/
def Left (ts : List Term) : Prop := (∃ node ∈ nodesAll ts, l node.1.id ≠ none ∧ 0 < countAll u node.2 ∧ K d ∧
    countAll d node.2 = 0) ∨ LeftIn l u d (standing ts)

variable {l K u d}

theorem left_cons {t : Term} {ts : List Term} : Left l K u d (t :: ts) ↔ Left l K u d [t] ∨ Left l K u d ts := by
  have hnodes : nodesAll (t :: ts) = nodesAll [t] ++ nodesAll ts := by simp [nodesAll]
  unfold Left LeftIn
  rw [standing_cons, hnodes]
  simp only [mem_append, or_and_right, exists_or]
  grind

theorem LeftIn.count_pos (h : LeftIn l u d ss) : ∃ s ∈ ss, 0 < countIn u [s] := by
  obtain ⟨s, hs, node, hnode, -, hu, -⟩ := h
  refine ⟨s, hs, ?_⟩
  have := countAll_le_of_nodes (u := u) hnode
  obtain ⟨kind, info, parts⟩ := s
  simp only [countIn, Statement.parts] at this ⊢
  omega

theorem left_absent {ts : List Term} (h : countAll u ts = 0) : ¬ Left l K u d ts := by
  rintro (⟨node, hnode, -, hu, -⟩ | left)
  · have := countAll_le_of_nodes (u := u) hnode
    omega
  · obtain ⟨s, hs, hu⟩ := left.count_pos
    have := countIn_le_of_standing (u := u) hs
    omega

theorem left_expr : Left l K u d [.expr listed kind info parts] ↔ Left l K u d parts ∨
      l info.id ≠ none ∧ 0 < countAll u parts ∧ K d ∧ countAll d parts = 0 := by
  have hnodes : nodesAll [.expr listed kind info parts] = nodesAll parts ++ [(info, parts)] := by
    simp [nodesAll, Term.nodes]
  unfold Left
  rw [hnodes, standing_expr]
  simp only [mem_append, mem_singleton, or_and_right, exists_or, exists_eq_left]
  grind

theorem left_group {info : Option Info} : Left l K u d [.group kind info parts] ↔ Left l K u d parts := by
  simp [Left, nodesAll, Term.nodes, standing_group]

theorem left_block : Left l K u d [.block info ss] ↔ LeftIn l u d (standingIn ss) := by
  simp [Left, nodesAll, Term.nodes, standing_block]

end Left

/-! ## Settled terms -/

/-- What becomes of a meaning. A use is among the new ones, and what was made for
a statement among `ss` sees what the statement saw. -/
def Carried (x : String) (l : Ledger) (ss : List Statement) (behind : NodeId → NodeId → Prop)
    (new : List Meaning) : Meaning → Prop
  | .use u r => ∃ r', .use u r' ∈ new ∧ Shifted (behind u) r r'
  | .stmt i r => ∀ s ∈ ss, s.info.id = i → ∀ node ∈ nodesAll s.parts, ∀ e,
      l node.1.id = some e → ∃ r', meaningsIn x ⟨r', false⟩ [e.guard.statement] ⊆ new ∧ Shifted (behind i) r r'

theorem Carried.mono {x : String} {l : Ledger} {ss' : List Statement} {G G' : NodeId → NodeId → Prop}
    {new new' : List Meaning} {m : Meaning} (h : Carried x l ss G new m)
    (hss : ∀ s ∈ ss', s.info.id = m.node → s ∈ ss) (hG : ∀ d, m.decl = some d → (G m.node d ↔ G' m.node d))
    (hnew : new ⊆ new') : Carried x l ss' G' new' m := by
  cases m with
  | use u r =>
    obtain ⟨r', hr', shifted⟩ := h
    exact ⟨r', hnew hr', shifted.congr hG⟩
  | stmt i r =>
    intro s hs hid node hnode e he
    obtain ⟨r', hr', shifted⟩ := h s (hss s hs hid) hid node hnode e he
    exact ⟨r', fun _ hm => hnew (hr' hm), shifted.congr hG⟩

/-- Parts `ts` of a statement with the nodes `K` are seen as planned by `p`, and
after the passes by `p'`. What is put before the statement is seen from `w`. -/
structure Hoist (H K : NodeId → Prop) (w : View) (ts : List Term) (p p' : Plan) : Prop where
  shifted : p.Shifted H p'
  old : p.Foreign ts
  new : p'.Foreign ts
  hoisted : Shifted (fun d => H d ∨ K d) p.view.decl w.decl
  apart : ∀ d, K d → w.decl ≠ some d
  inside : ∀ d, 0 < countAll d ts → K d ∧ ¬ H d
  once : ∀ i, countAll i ts ≤ 1

theorem Kind.plan_view_decl (x : String) (kind : Kind) (parts : List Term) (v : View) :
    (kind.plan x parts v).view.decl = v.decl := by
  unfold Kind.plan
  split <;> rfl

theorem Kind.plan_congr {x : String} (kind : Kind) {parts' : List Term}
    (h : declaredAll x parts' = declaredAll x parts) (v : View) : kind.plan x parts' v = kind.plan x parts v := by
  unfold Kind.plan
  rw [h]

namespace Hoist

variable {K : NodeId → Prop} {w : View} {parts' : List Term}

theorem head (h : Hoist H K w (t :: ts) p p') : Hoist H K w [t] p p' where
  shifted := h.shifted
  old := h.old.head
  new := h.new.head
  hoisted := h.hoisted
  apart := h.apart
  inside d hd := h.inside d (by
    simp only [countAll] at hd ⊢
    omega)
  once i := by
    have := h.once i
    simp only [countAll] at this ⊢
    omega

theorem tail (h : Hoist H K w (t :: ts) p p') : Hoist H K w ts (p.next (t.declared x)) (p'.next (t.declared x)) where
  shifted := h.shifted.next fun d hd =>
    (h.inside d.id (Nat.add_pos_left (Term.declared_node hd) _)).2
  old := h.old.tail h.once
  new := h.new.tail h.once
  hoisted := by
    -- a declaration of this statement is left behind
    have declared : ∀ d, K d → Shifted (fun d => H d ∨ K d) (some d) w.decl := fun d hd =>
      iff_of_false (h.apart d hd) fun hH => hH d rfl (.inr hd)
    rcases p.view_next (t.declared x) with hview | hview <;> rw [hview]
    · exact h.hoisted
    · rcases p.view.after_decl (t.declared x) with hdecl | ⟨d, hd, hdecl⟩ <;> rw [hdecl]
      · exact h.hoisted
      · exact declared d.id (h.inside d.id (Nat.add_pos_left (Term.declared_node hd) _)).1
  apart := h.apart
  inside d hd := h.inside d (Nat.add_pos_right _ hd)
  once i := Nat.le_trans (Nat.le_add_left _ _) (h.once i)

/-- The parts of a construct. -/
theorem ofParts (h : Hoist H K w [t] p p') (kind : Kind) (hcount : ∀ i, countAll i parts ≤ t.count i)
    (hdeclared : declaredAll x parts' = declaredAll x parts) {v' : View} (hv : v.decl = p.view.decl)
    (hv' : v'.decl = p'.view.decl) (inner : v'.inner = v.inner) :
    Hoist H K w parts (kind.plan x parts v) (kind.plan x parts' v') := by
  have le : ∀ i, countAll i parts ≤ countAll i [t] := fun i => by
    simp only [countAll]
    exact hcount i
  have inside : ∀ d, 0 < countAll d parts → K d ∧ ¬ H d := fun d hd =>
    h.inside d (hd.trans_le (le d))
  have once : ∀ i, countAll i parts ≤ 1 := fun i => Nat.le_trans (le i) (h.once i)
  have foreign : v.Foreign (countAll · parts) := fun d hd =>
    h.old.view.mono le d (hv ▸ hd)
  have foreign' : v'.Foreign (countAll · parts) := fun d hd =>
    h.new.view.mono le d (hv' ▸ hd)
  exact {
    shifted := kind.plan_shifted ⟨inner, by rw [hv, hv']; exact h.shifted.view.decl⟩ hdeclared
      fun d hd => (inside d.id (declaredAll_node hd)).2
    old := kind.plan_foreign foreign once
    new := by
      rw [kind.plan_congr hdeclared]
      exact kind.plan_foreign foreign' once
    hoisted := by
      rw [Kind.plan_view_decl, hv]
      exact h.hoisted
    apart := h.apart
    inside := inside
    once := once }

/-- The parts of a check that is expanded. They are seen from before its
statement, the rest of which is left behind. -/
theorem ofOperand (h : Hoist H K w [t] p p') (kind : Kind) (hcount : ∀ i, countAll i parts ≤ t.count i)
    (hdeclared : declaredAll x parts' = declaredAll x parts) :
    Hoist (fun d => H d ∨ K d ∧ countAll d parts = 0) K w parts (kind.plan x parts p.view.enter)
      (kind.plan x parts' w.enter) := by
  have le : ∀ i, countAll i parts ≤ countAll i [t] := fun i => by
    simp only [countAll]
    exact hcount i
  have inside : ∀ d, 0 < countAll d parts → K d ∧ ¬ (H d ∨ K d ∧ countAll d parts = 0) := by
    intro d hd
    obtain ⟨hK, hH⟩ := h.inside d (hd.trans_le (le d))
    exact ⟨hK, fun hor => hor.elim hH fun hK => by omega⟩
  have once : ∀ i, countAll i parts ≤ 1 := fun i => Nat.le_trans (le i) (h.once i)
  have foreign : p.view.enter.Foreign (countAll · parts) := h.old.view.mono le
  have foreign' : w.enter.Foreign (countAll · parts) := fun d hd =>
    Nat.eq_zero_of_not_pos fun hpos => h.apart d (inside d hpos).1 hd
  exact {
    shifted := kind.plan_shifted ⟨rfl, h.hoisted.congr fun d hd => by
      have : countAll d parts = 0 := foreign d hd
      simp only [this, and_true]⟩ hdeclared fun d hd => (inside d.id (declaredAll_node hd)).2
    old := kind.plan_foreign foreign once
    new := by
      rw [kind.plan_congr hdeclared]
      exact kind.plan_foreign foreign' once
    hoisted := by
      rw [Kind.plan_view_decl]
      exact h.hoisted.congr fun d _ => by grind
    apart := h.apart
    inside := inside
    once := once }

end Hoist

end CheckHandle
