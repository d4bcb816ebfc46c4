import CheckHandle.Proofs.Hoisting
import CheckHandle.Proofs.Progress

/-!
# Resolution after the passes

Terms carry what names mean in them through settling: one lemma for each kind of
term, and from these, by recursion, a whole file. A use of a name in a file that
some passes have gone over means what it meant when the file was collected,
unless it stands in the operand of an expanded check and what it means is
declared by the statement of the check.
-/

namespace CheckHandle

open List

variable {P P' Q : Kind → Info → List Term → Prop}

variable {s : Statement} {listed : Bool} {kind : Kind} {info : Info} {parts : List Term} {p : Plan} {m : Meaning}

attribute [local simp] Expr.parts Term.blocks Term.nodes blocksAll meaningsIn meaningsAll nodesAll
  standing useMeaning

section Inserted

variable {l : Ledger} {x : String}

/-- Among statements that declare nothing, each is seen from the same view. -/
theorem meaningsIn_subset {ss : List Statement} (hs : s ∈ ss) (h : declaredIn x ss = []) (v : View) :
    meaningsIn x v [s] ⊆ meaningsIn x v ss := by
  obtain ⟨ss1, ss2, rfl⟩ := append_of_mem hs
  rw [declaredIn_append, append_eq_nil_iff] at h
  have rest : meaningsIn x v [s] ⊆ meaningsIn x v ([s] ++ ss2) := by
    rw [meaningsIn_append]
    exact subset_append_left ..
  rw [meaningsIn_append, h.1]
  exact fun m hm => mem_append_right _ (rest hm)

/-- A conditional opens a scope of its own. -/
theorem meaningsIn_cond (h : s.kind = .cond) (v : View) :
    meaningsIn x v [s] = meaningsIn x ⟨v.decl, false⟩ [s] := by
  obtain ⟨kind, info, parts⟩ := s
  cases h
  simp [Kind.plan, View.enter]

def Term.IsExpr : Term → Prop
  | .expr .. => True
  | _ => False

theorem isExpr_exprTerms {ys : List Expr} : ∀ t ∈ exprTerms listed ys, t.IsExpr := by
  induction ys with
  | nil => simp [exprTerms]
  | cons y ys ih =>
    rw [exprTerms]
    exact forall_mem_cons.mpr ⟨trivial, ih⟩

theorem isExpr_settle :
    ∀ t ∈ ((Term.expr listed kind info parts).settle l).1, t.IsExpr := by
  rw [Term.settle]
  split
  · exact forall_mem_singleton.mpr trivial
  · exact isExpr_exprTerms

/-- Expressions do not see in which scope a name is declared. -/
theorem meaningsAll_of_isExpr {ts : List Term} (h : ∀ t ∈ ts, t.IsExpr) {p' : Plan}
    (decl : p'.view.decl = p.view.decl) (skip : p'.skip = p.skip) :
    meaningsAll x p' ts = meaningsAll x p ts := by
  induction ts with
  | nil => simp
  | cons t ts ih =>
    obtain ⟨ht, hts⟩ := forall_mem_cons.mp h
    cases t with
    | expr listed kind info parts =>
      have enter : p'.view.enter = p.view.enter := by rw [View.enter, View.enter, decl]
      have use : useMeaning x kind (some info) p'.view = useMeaning x kind (some info) p.view := by
        simp only [useMeaning, decl]
      simp only [meaningsAll, Term.meanings, Term.declared, Plan.next_nil, ih hts, enter, use, skip]
    | _ => cases ht

end Inserted

/-! ## One construct -/

/-- Settling carries what names mean in these parts of a statement. -/
def Carries (x : String) (l : Ledger) (ts : List Term) : Prop :=
  ∀ ⦃H K : NodeId → Prop⦄ ⦃w : View⦄ ⦃p p' : Plan⦄, Hoist H K w ts p p' →
    ∀ m ∈ meaningsAll x p ts, Carried x l (standing ts) (fun u d => H d ∨ Left l K u d ts)
      (meaningsAll x p' (settleAll l ts).1 ++ meaningsIn x w (settleAll l ts).2) m

/-- Settling carries what names mean in these statements of a block. -/
def CarriesIn (x : String) (l : Ledger) (ss : List Statement) : Prop :=
  ∀ ⦃H : NodeId → Prop⦄ ⦃v v' : View⦄, v.Shifted H v' → v.Foreign (countIn · ss) →
    v'.Foreign (countIn · ss) → (∀ d, 0 < countIn d ss → ¬ H d) →
    (∀ i, countIn i ss ≤ 1) → ∀ m ∈ meaningsIn x v ss,
      Carried x l (standingIn ss) (fun u d => H d ∨ LeftIn l u d (standingIn ss))
        (meaningsIn x v' (settleIn l ss)) m

section Carries

variable {l : Ledger} {x : String} {t : Term} {ts : List Term}
  {ss : List Statement}

variable {i u d : NodeId} {e : Expanded} {parts' : List Term}

theorem countAll_pos_of_standing (hs : s ∈ standing ts) (hi : s.info.id = i) : 0 < countAll i ts := by
  obtain ⟨kind, info, parts⟩ := s
  cases hi
  refine Nat.lt_of_lt_of_le ?_ (countIn_le_of_standing hs)
  exact Nat.add_pos_left (Nat.add_pos_left info.count_self_pos _) _

theorem carries_nil : Carries x l [] := by
  intro H K w p p' h m hm
  simp at hm

theorem carries_cons (hides : l.Hides x) (every : EveryTerms (IsCheck l) (fun _ _ _ => True) (t :: ts))
    (head : Carries x l [t]) (tail : Carries x l ts) : Carries x l (t :: ts) := by
  intro H K w p p' h m hm
  have hm' := hm
  rw [EveryTerms] at every
  obtain ⟨hdeclared, hbefore⟩ := t.declared_settle hides every.1
  rw [settleAll, meaningsAll_append, meaningsIn_append, hdeclared, hbefore]
  rw [meaningsAll_cons, mem_append] at hm
  have once := h.once m.node
  rw [countAll] at once
  rcases hm with hm | hm
  · have hpos := meaningsAll_node hm
    have absent : countAll m.node ts = 0 := by
      simp only [countAll] at hpos
      omega
    refine (head h.head m hm).mono (fun s hs hid => ?_) (fun d _ => ?_) ?_
    · rw [standing_cons, mem_append] at hs
      refine hs.resolve_right fun hs => ?_
      have := countAll_pos_of_standing hs hid
      omega
    · have split : Left l K m.node d (t :: ts) ↔ _ := left_cons
      rw [split, or_iff_left (left_absent absent)]
    · rw [settleAll_singleton]
      intro m hm
      rw [mem_append] at hm
      simp only [mem_append]
      rcases hm with hm | hm
      · exact .inl (.inl hm)
      · exact .inr (.inl hm)
  · have hpos := meaningsAll_node hm
    have absent : countAll m.node [t] = 0 := by
      simp only [countAll]
      omega
    refine (tail h.tail m hm).mono (fun s hs hid => ?_) (fun d _ => ?_) ?_
    · rw [standing_cons, mem_append] at hs
      refine hs.resolve_left fun hs => ?_
      have := countAll_pos_of_standing hs hid
      omega
    · have split : Left l K m.node d (t :: ts) ↔ _ := left_cons
      rw [split, or_iff_right (left_absent absent)]
    · intro m hm
      rw [mem_append] at hm
      simp only [mem_append]
      rcases hm with hm | hm
      · exact .inl (.inr hm)
      · exact .inr (.inr hm)

theorem meaningsAll_expr (hm : m ∈ meaningsAll x p [.expr listed kind info parts]) :
    (p.skip && ((Term.expr listed kind info parts).named? x).isSome) = false ∧
      (m ∈ useMeaning x kind (some info) p.view ∨ m ∈ meaningsAll x (kind.plan x parts p.view.enter) parts) := by
  rw [meaningsAll, meaningsAll, append_nil] at hm
  split at hm
  · cases hm
  · rename_i kept
    rw [Term.meanings, mem_append] at hm
    exact ⟨Bool.not_eq_true _ ▸ kept, hm⟩

/-- An expression that stays. -/
theorem carries_kept (hides : l.Hides x) (every : EveryTerms (IsCheck l) (fun _ _ _ => True) parts)
    (hl : l info.id = none) (inside : Carries x l parts) :
    Carries x l [.expr listed kind info parts] := by
  intro H K w p p' h m hm
  have hdeclared := (declaredAll_settle hides parts every).1
  obtain ⟨kept, hm⟩ := meaningsAll_expr hm
  have new : meaningsAll x p' (settleAll l [.expr listed kind info parts]).1 = useMeaning x kind (some info) p'.view
        ++ meaningsAll x (kind.plan x (settleAll l parts).1 p'.view.enter) (settleAll l parts).1 := by
    rw [settleAll_singleton, Term.settle, hl]
    simp only [meaningsAll, Term.meanings, h.shifted.skip, append_nil,
      Term.named?_expr x listed kind info (settleAll l parts).1 parts, kept]
    rfl
  have before : (settleAll l [.expr listed kind info parts]).2 = (settleAll l parts).2 := by
    rw [settleAll_singleton, Term.settle, hl]
  have left : ∀ u d, Left l K u d [.expr listed kind info parts] ↔ Left l K u d parts := fun u d => by
    rw [left_expr, hl]
    exact or_iff_left fun hne => hne.1 rfl
  rw [new, before, standing_expr]
  rcases hm with hm | hm
  · have node := useMeaning_node hm
    have once := h.once m.node
    simp only [countAll, Term.count, countInfo?] at node once
    cases m with
    | stmt i r => simp at hm
    | use u r =>
      obtain ⟨r', hr', shifted⟩ := useMeaning_shifted h.shifted.view hm
      refine ⟨r', mem_append_left _ (mem_append_left _ hr'), shifted.congr fun d _ => ?_⟩
      refine (or_iff_left fun hleft => left_absent ?_ ((left u d).mp hleft)).symm
      simp only [Meaning.node] at node once
      omega
  · have hoist : Hoist H K w parts (kind.plan x parts p.view.enter)
        (kind.plan x (settleAll l parts).1 p'.view.enter) :=
      h.ofParts kind (fun i => by
        rw [Term.count]
        exact Nat.le_add_left _ _) hdeclared rfl rfl rfl
    refine (inside hoist m hm).mono (fun s hs _ => hs) (fun d _ => ?_) ?_
    · rw [left]
    · intro m hm
      simp only [mem_append] at hm ⊢
      rcases hm with hm | hm
      · exact .inl (.inr hm)
      · exact .inr hm

theorem carries_group {gkind : Kind} {ginfo : Option Info} (hides : l.Hides x)
    (every : EveryTerms (IsCheck l) (fun _ _ _ => True) parts) (inside : Carries x l parts) :
    Carries x l [.group gkind ginfo parts] := by
  intro H K w p p' h m hm
  have hdeclared := (declaredAll_settle hides parts every).1
  simp only [meaningsAll, Term.named?, Option.isSome_none, Bool.and_false, Bool.false_eq_true,
    if_false, Term.meanings, append_nil] at hm
  simp only [settleAll_singleton, Term.settle, meaningsAll, Term.named?, Option.isSome_none,
    Bool.and_false, Bool.false_eq_true, if_false, Term.meanings, append_nil, left_group, standing_group]
  refine inside (h.ofParts gkind (fun i => ?_) hdeclared rfl rfl h.shifted.view.inner) m hm
  rw [Term.count]
  exact Nat.le_add_left _ _

theorem carries_fixed {fkind : Kind} {finfo : Option Info} : Carries x l [.fixed fkind finfo parts] := by
  intro H K w p p' h m hm
  have hstanding : standing [.fixed fkind finfo parts] = [] := by
    simp
  have left : ∀ u d, ¬ Left l K u d [.fixed fkind finfo parts] := fun u d => by
    simp [Left, LeftIn]
  cases m with
  | stmt i r =>
    intro s hs
    rw [hstanding] at hs
    cases hs
  | use u r =>
    rw [meaningsAll, meaningsAll, append_nil] at hm
    split at hm
    · cases hm
    · rename_i skip
      obtain ⟨r', hr', shifted⟩ := Term.meanings_shifted (t := .fixed fkind finfo parts) h.shifted.view h.old.view
        (fun d hd => (h.inside d hd).2) (by simpa [Term.meanings] using hm)
      refine ⟨r', ?_, shifted.congr fun d _ => (or_iff_left (left u d)).symm⟩
      rw [settleAll_singleton, Term.settle, mem_append, meaningsAll, h.shifted.skip, if_neg skip]
      exact .inl (mem_append_left _ (by simpa [Term.meanings] using hr'))

theorem carries_block (inside : CarriesIn x l ss) : Carries x l [.block info ss] := by
  intro H K w p p' h m hm
  have le : ∀ i, countIn i ss ≤ countAll i [.block info ss] := fun i => by
    simp only [countAll, Term.count]
    omega
  have foreign : ∀ {q : Plan}, q.Foreign [.block info ss] →
      (q.body.getD q.view.enter).Foreign (countIn · ss) := by
    intro q hq
    rcases hbody : q.body with _ | b
    · exact hq.view.mono le
    · exact hq.body b hbody info ss mem_cons_self
  simp only [meaningsAll, Term.named?, Option.isSome_none, Bool.and_false, Bool.false_eq_true,
    if_false, Term.meanings, append_nil] at hm
  simp only [settleAll_singleton, Term.settle, meaningsAll, Term.named?, Option.isSome_none,
    Bool.and_false, Bool.false_eq_true, if_false, Term.meanings, meaningsIn, append_nil,
    left_block, standing_block]
  exact inside h.shifted.getD_body (foreign h.old) (foreign h.new)
    (fun d hd => (h.inside d (hd.trans_le (le d))).2)
    (fun i => Nat.le_trans (le i) (h.once i)) m hm

/-- What the parts of a check mean, the definition of its results means. -/
theorem meaningsAll_checkParts_subset (hides : l.Hides x) {ellipsis : Bool} {fn : Info}
    {operands : List Term} (hops : ∀ t ∈ operands, t.IsExpr) (w : View) :
    meaningsAll x ((Kind.call ellipsis).plan x
        [.expr false (.ident checkFunc) fn [], .group .list none operands] w.enter)
        [.expr false (.ident checkFunc) fn [], .group .list none operands]
      ⊆ meaningsIn x w [e.definition (.group .list none operands)] := by
  have hfn : useMeaning x (.ident checkFunc) (some fn) w.enter = [] := by
    simp [Kind.uses, hides.marker]
  have inside : meaningsAll x ⟨w.enter, true, none, false⟩ operands
      = meaningsAll x ⟨w, true, none, false⟩ operands := meaningsAll_of_isExpr hops rfl rfl
  intro m hm
  simp only [meaningsAll, Kind.plan, Term.named?, Term.meanings, Term.declared, Plan.next_nil,
    Bool.false_and, Bool.false_eq_true, if_false, append_nil, hfn, nil_append, inside] at hm
  simp only [Expanded.definition, meaningsIn, mem_cons, append_nil]
  refine .inr ?_
  simp only [Kind.plan, meaningsAll, Plan.next, Term.named?, Term.meanings, Bool.false_and,
    Bool.false_eq_true, if_false, append_nil, mem_append]
  exact .inr hm

/-- A check that is expanded. -/
theorem carries_check (hides : l.Hides x) (every : EveryTerms (IsCheck l) (fun _ _ _ => True) parts)
    (he : l info.id = some e) (check : IsCheck l kind info parts) (inside : Carries x l parts) :
    Carries x l [.expr listed kind info parts] := by
  intro H K w p p' h m hm
  have hdeclared := (declaredAll_settle hides parts every).1
  obtain ⟨ellipsis, fn, kind', info', parts', hkind, hparts, hfn⟩ := check (by rw [he]; simp)
  replace hm : m ∈ meaningsAll x (kind.plan x parts p.view.enter) parts := by
    refine (meaningsAll_expr hm).2.resolve_left fun hm => ?_
    simp [hkind, Kind.uses] at hm
  have hpos := meaningsAll_node hm
  have hoist := h.ofOperand kind (x := x) (fun i => by
    rw [Term.count]
    exact Nat.le_add_left _ _) hdeclared
  refine (inside hoist m hm).mono (fun s hs _ => ?_) (fun d _ => ?_) ?_
  · simpa using hs
  · rw [left_expr, he]
    grind
  · subst hkind hparts
    rw [settleAll_singleton, settle_check he hfn, settle_checkParts hfn, meaningsIn_append]
    have hbefore := (declaredAll_settle hides _ every).2
    rw [settle_checkParts hfn] at hbefore
    rw [hbefore]
    intro m hm
    rw [mem_append] at hm
    simp only [mem_append]
    rcases hm with hm | hm
    · refine .inr (.inr ?_)
      have hdef := meaningsAll_checkParts_subset hides (e := e) isExpr_settle w hm
      rw [show ∀ s t : Statement, [s, t] = [s] ++ [t] from fun _ _ => rfl, meaningsIn_append, mem_append]
      exact .inl hdef
    · exact .inr (.inl hm)

/-! ## Statements -/

theorem carriesIn_nil : CarriesIn x l [] := by
  intro H v v' _ _ _ _ _ m hm
  simp at hm

theorem countIn_pos_of_standingIn (hs : s ∈ standingIn ss) (hi : s.info.id = i) : 0 < countIn i ss := by
  obtain ⟨kind, info, parts⟩ := s
  cases hi
  refine Nat.lt_of_lt_of_le ?_ (countIn_le_of_standingIn hs)
  exact Nat.add_pos_left (Nat.add_pos_left info.count_self_pos _) _

theorem leftIn_absent (h : countIn u ss = 0) : ¬ LeftIn l u d (standingIn ss) := by
  intro left
  obtain ⟨s, hs, hu⟩ := left.count_pos
  have := countIn_le_of_standingIn (u := u) hs
  omega

/-- What is left behind by a block, told by its first statement and the others. -/
theorem leftIn_cons : LeftIn l u d (standingIn (.mk kind info parts :: ss)) ↔
    Left l (fun d => 0 < countIn d [.mk kind info parts]) u d parts ∨ LeftIn l u d (standingIn ss) := by
  unfold Left LeftIn
  simp only [mem_standingIn_cons, or_and_right, exists_or, exists_eq_left]
  exact or_assoc.symm

theorem declaredIn_remaining (h : declaredAll x parts' = declaredAll x parts) :
    declaredIn x (remaining kind info parts parts') = Statement.declared x (.mk kind info parts) := by
  unfold remaining
  split
  · rename_i hexpr
    simp [declaredIn, Statement.declared, Statement.kind, hexpr.1, Kind.exports]
  · simp only [declaredIn, flatMap_cons, flatMap_nil, append_nil]
    unfold Statement.declared
    exact congrArg (fun ds => if kind.exports then ds else []) h

/-- What remains of a statement has its parts. -/
theorem meaningsAll_subset_remaining (v : View) : meaningsAll x (kind.plan x parts' v) parts'
      ⊆ meaningsIn x v (remaining kind info parts parts') := by
  unfold remaining
  split
  · rename_i hexpr
    rw [hexpr.2.2]
    simp
  · simp only [meaningsIn, append_nil]
    exact subset_cons_self _ _

/-- The guard of an expanded check is among what goes before its statement. -/
theorem guard_mem_settleAll (every : EveryTerms (IsCheck l) (fun _ _ _ => True) ts)
    {node : Info × List Term} (hnode : node ∈ nodesAll ts) (he : l node.1.id = some e) :
    e.guard.statement ∈ (settleAll l ts).2 := by
  obtain ⟨kind, check⟩ := everyTerms_of_nodes every hnode
  obtain ⟨_, fn, _, _, _, -, hparts, hfn⟩ := check (by rw [he]; simp)
  rw [settleAll_before, mem_flatMap]
  refine ⟨node, hnode, ?_⟩
  simp only [Ledger.insertedAt, he]
  rw [hparts, settle_checkParts hfn]
  simp [Expanded.inserted]

/-- Where no identity stands twice, a statement is known by its own to be this
one, to stand in its parts, or to follow it. -/
theorem standingIn_cons_of_id {u : NodeId} (once : countIn u (.mk kind info parts :: ss) ≤ 1)
    (hs : s ∈ standingIn (.mk kind info parts :: ss)) (hid : s.info.id = u) :
    (0 < info.count u → s = .mk kind info parts) ∧ (0 < countAll u parts → s ∈ standing parts) ∧
      (0 < countIn u ss → s ∈ standingIn ss) := by
  rw [countIn] at once
  rcases mem_standingIn_cons.mp hs with rfl | hs | hs
  · have : 0 < info.count u := hid ▸ info.count_self_pos
    exact ⟨fun _ => rfl, fun _ => by omega, fun _ => by omega⟩
  · have := countAll_pos_of_standing hs hid
    exact ⟨fun _ => by omega, fun _ => hs, fun _ => by omega⟩
  · have := countIn_pos_of_standingIn hs hid
    exact ⟨fun _ => by omega, fun _ => by omega, fun _ => hs⟩

attribute [local grind =] countIn in
/-- The parts of a statement are hoisted over the statement. -/
theorem hoist_cons {H : NodeId → Prop} {v v' : View} (hides : l.Hides x)
    (every : EveryTerms (IsCheck l) (fun _ _ _ => True) parts) (shifted : v.Shifted H v')
    (old : v.Foreign (countIn · (.mk kind info parts :: ss)))
    (new : v'.Foreign (countIn · (.mk kind info parts :: ss)))
    (behind : ∀ d, 0 < countIn d (.mk kind info parts :: ss) → ¬ H d)
    (once : ∀ i, countIn i (.mk kind info parts :: ss) ≤ 1) :
    Hoist H (fun d => 0 < countIn d [.mk kind info parts]) v' parts (kind.plan x parts v)
      (kind.plan x (settleAll l parts).1 v') := by
  obtain ⟨hdeclared, -⟩ := declaredAll_settle hides parts every
  have inside : ∀ i, countAll i parts ≤ countIn i (.mk kind info parts :: ss) := fun i => by grind
  exact {
    shifted := kind.plan_shifted shifted hdeclared fun d hd =>
      behind d.id (Nat.lt_of_lt_of_le (declaredAll_node hd) (inside _))
    old := kind.plan_foreign (old.mono inside) fun i => (inside i).trans (once i)
    new := by
      rw [kind.plan_congr hdeclared]
      exact kind.plan_foreign (new.mono inside) fun i => (inside i).trans (once i)
    hoisted := by
      rw [Kind.plan_view_decl]
      refine shifted.decl.congr fun d hd => (or_iff_left fun hK => ?_).symm
      have : countIn d (.mk kind info parts :: ss) = 0 := old d hd
      grind
    apart := fun d hK hd => by
      have : countIn d (.mk kind info parts :: ss) = 0 := new d hd
      grind
    inside := fun d hd => ⟨by grind, behind d (by grind)⟩
    once := fun i => (inside i).trans (once i) }

attribute [local grind =] countIn in
theorem carriesIn_cons (hides : l.Hides x)
    (every : EveryTerms (IsCheck l) (fun _ _ _ => True) parts) (inside : Carries x l parts)
    (rest : CarriesIn x l ss) : CarriesIn x l (.mk kind info parts :: ss) := by
  intro H v v' shifted old new behind once m hm
  obtain ⟨hdeclared, hbefore⟩ := declaredAll_settle hides parts every
  have hoist := hoist_cons hides every shifted old new behind once
  have after : settleIn l (.mk kind info parts :: ss) = (settleAll l parts).2
      ++ (remaining kind info parts (settleAll l parts).1 ++ settleIn l ss) := by
    rw [settleIn, append_assoc]
  have newMeanings : meaningsIn x v' (settleIn l (.mk kind info parts :: ss))
      = meaningsIn x v' (settleAll l parts).2
        ++ (meaningsIn x v' (remaining kind info parts (settleAll l parts).1)
        ++ meaningsIn x (v'.after (Statement.declared x (.mk kind info parts))) (settleIn l ss)) := by
    rw [after, meaningsIn_append, hbefore, meaningsIn_append, declaredIn_remaining hdeclared]
    rfl
  rw [newMeanings]
  rw [meaningsIn, cons_append, mem_cons, mem_append] at hm
  have onceₘ := once m.node
  rcases hm with rfl | hm | hm
  · -- the guards of the statement see what it saw
    have hself := info.count_self_pos
    intro s hs hid node hnode e he
    obtain rfl := (standingIn_cons_of_id onceₘ hs hid).1 hself
    simp only [Meaning.node, countIn] at onceₘ
    refine ⟨v'.decl, ?_, shifted.decl.congr fun d _ => (or_iff_left ?_).symm⟩
    · have := meaningsIn_subset (guard_mem_settleAll every hnode he) hbefore v'
      rw [meaningsIn_cond (s := e.guard.statement) (hides.guard he)] at this
      exact fun m hm => mem_append_left _ (this hm)
    · rw [leftIn_cons]
      rintro (left | left)
      · exact left_absent (by omega) left
      · exact leftIn_absent (by omega) left
  · have hpos := meaningsAll_node hm
    refine (inside hoist m hm).mono (fun s hs hid => (standingIn_cons_of_id onceₘ hs hid).2.1 hpos) (fun d _ => ?_) ?_
    · show H d ∨ Left l _ m.node d parts ↔ H d ∨ LeftIn l m.node d _
      have absent : countIn m.node ss = 0 := by grind
      rw [leftIn_cons, or_iff_left (leftIn_absent absent)]
    · intro m hm
      rw [mem_append] at hm
      simp only [mem_append]
      rcases hm with hm | hm
      · exact .inr (.inl (meaningsAll_subset_remaining v' hm))
      · exact .inl hm
  · have hpos := meaningsIn_node hm
    have declared : ∀ d ∈ Statement.declared x (.mk kind info parts),
        0 < countIn d.id [.mk kind info parts] := fun d hd => by
      have := Statement.declared_node hd
      simp only [Statement.parts] at this
      grind
    have foreign : ∀ {v : View}, v.Foreign (countIn · (.mk kind info parts :: ss)) →
        (v.after (Statement.declared x (.mk kind info parts))).Foreign (countIn · ss) := by
      intro v hv
      refine View.Foreign.after (m := (countIn · [.mk kind info parts])) (hv.mono fun i => by grind)
        (fun i => ?_) declared
      have := once i
      grind
    refine (rest (shifted.after fun d hd => behind d.id ?_) (foreign old) (foreign new)
      (fun d hd => behind d (by grind)) (fun i => ?_) m hm).mono
      (fun s hs hid => (standingIn_cons_of_id onceₘ hs hid).2.2 hpos) (fun d _ => ?_) ?_
    · have := declared d hd
      grind
    · have := once i
      grind
    · have absent : countAll m.node parts = 0 := by grind
      rw [leftIn_cons, or_iff_right (left_absent absent)]
    · exact fun m hm => mem_append_right _ (mem_append_right _ hm)

end Carries

/-! ## Whole files -/

section Whole

variable {l : Ledger} {x : String}

mutual

/-- Settling carries what names mean in a term. -/
theorem Term.carries (hides : l.Hides x) : ∀ t : Term, t.Every (IsCheck l) (fun _ _ _ => True) → Carries x l [t]
  | .expr listed kind info parts, every => by
    rw [Term.Every] at every
    have inside := carries hides parts every.2
    rcases he : l info.id with _ | e
    · exact carries_kept hides every.2 he inside
    · exact carries_check hides every.2 he every.1 inside
  | .group kind info parts, every => by
    rw [Term.Every] at every
    exact carries_group hides every (carries hides parts every)
  | .fixed .., _ => carries_fixed
  | .block info ss, every => by
    rw [Term.Every] at every
    exact carries_block (carriesIn hides ss every)

theorem carries (hides : l.Hides x) : ∀ ts : List Term, EveryTerms (IsCheck l) (fun _ _ _ => True) ts → Carries x l ts
  | [], _ => carries_nil
  | t :: ts, every => by
    have every' := every
    rw [EveryTerms] at every'
    exact carries_cons hides every (t.carries hides every'.1) (carries hides ts every'.2)

theorem carriesIn (hides : l.Hides x) : ∀ ss : List Statement,
    EveryIn (IsCheck l) (fun _ _ _ => True) ss → CarriesIn x l ss
  | [], _ => carriesIn_nil
  | .mk kind info parts :: ss, every => by
    rw [EveryIn] at every
    exact carriesIn_cons hides every.2.1 (carries hides parts every.2.1) (carriesIn hides ss every.2.2)

end

/-- Before the first declaration. -/
theorem Hoist.ofFile {t : Term} (once : ∀ i, t.count i ≤ 1) :
    Hoist (fun _ => False) (fun d => 0 < t.count d) ⟨none, false⟩ [t] ⟨⟨none, false⟩, false, none, false⟩
      ⟨⟨none, false⟩, false, none, false⟩ where
  shifted := ⟨⟨rfl, .refl nofun⟩, rfl, rfl, .inl ⟨rfl, rfl⟩⟩
  old := ⟨nofun, nofun⟩
  new := ⟨nofun, nofun⟩
  hoisted := .refl nofun
  apart := nofun
  inside d hd := ⟨by simpa [countAll] using hd, id⟩
  once i := by simpa [countAll] using once i

/-- What becomes of the meanings in a file in which nothing is expanded outside
the blocks. -/
theorem File.carried {f f' : File} (hides : l.Hides x) (every : f.term.Every (IsCheck l) (fun _ _ _ => True))
    (once : ∀ i, f.term.count i ≤ 1) (settled : f.term.settle l = ([f'.term], []))
    (outside : ∀ i ∈ f.term.own, l i = none) (hm : m ∈ f.meanings x) :
    Carried x l (standing [f.term]) (fun u d => LeftIn l u d (standing [f.term])) (f'.meanings x) m := by
  have old : meaningsAll x ⟨⟨none, false⟩, false, none, false⟩ [f.term] = f.meanings x := by
    simp [File.meanings]
  have new : meaningsAll x ⟨⟨none, false⟩, false, none, false⟩ [f'.term] = f'.meanings x := by
    simp [File.meanings]
  have carried := f.term.carries hides every (.ofFile once) m (old ▸ hm)
  rw [settleAll_singleton, settled, new] at carried
  refine carried.mono (fun s hs _ => hs) (fun d _ => ?_) (by simp)
  rw [false_or]
  refine or_iff_right ?_
  rintro ⟨node, hnode, hl, -⟩
  refine hl (outside _ ?_)
  rw [Term.own_eq_nodes]
  exact mem_map_of_mem (by simpa using hnode)

end Whole

/-! ## Files during the passes -/

section Passed

variable {c0 c : Collected} {n0 : NodeId} {k : Nat} {t0 t : Term} {l : Ledger} {x : String}

/-- Only checks have the parts of a check. -/
theorem kind_of_checkParts (expr : IsExpr kind info parts)
    (check : AreCheckParts parts) : ∃ ellipsis, kind = .call ellipsis := by
  obtain ⟨y, rfl, rfl, rfl⟩ := expr
  obtain ⟨fn, operand, hparts⟩ := check
  cases y with
  | call => exact ⟨_, rfl⟩
  | composite _ ty =>
    rcases ty with _ | ty
    · simp [typeTerm?, Term.absent] at hparts
    · cases ty <;> simp [typeTerm?, TypeExpr.term] at hparts
  | funcLit _ sig =>
    cases sig
    simp [Signature.term] at hparts
  | typeAssert _ _ ty => cases ty <;> simp [TypeExpr.term] at hparts
  | _ => simp [Ident.term] at hparts

variable {T : Term → Prop} {Ts : List Term → Prop} {Ss : List Statement → Prop}

mutual

/-- What follows at each expression from what passes down to it. -/
theorem PassesDown.every (h : PassesDown T Ts Ss)
    (here : ∀ {listed kind info parts}, T (.expr listed kind info parts) → P kind info parts → P' kind info parts) :
    ∀ {t : Term}, T t → t.Every P Q → t.Every P' fun _ _ _ => True
  | .expr .., ht, every => by
    rw [Term.Every] at every ⊢
    exact ⟨here ht every.1, h.everyTerms here (h.expr ht) every.2⟩
  | .group .., ht, every => by
    rw [Term.Every] at every ⊢
    exact h.everyTerms here (h.group ht) every
  | .fixed .., _, _ => by simp [Term.Every]
  | .block .., ht, every => by
    rw [Term.Every] at every ⊢
    exact h.everyIn here (h.block ht) every

theorem PassesDown.everyTerms (h : PassesDown T Ts Ss)
    (here : ∀ {listed kind info parts}, T (.expr listed kind info parts) → P kind info parts → P' kind info parts) :
    ∀ {ts : List Term}, Ts ts → EveryTerms P Q ts → EveryTerms P' (fun _ _ _ => True) ts
  | [], _, _ => by simp [EveryTerms]
  | _ :: _, hts, every => by
    rw [EveryTerms] at every ⊢
    exact ⟨h.every here (h.cons hts).1 every.1, h.everyTerms here (h.cons hts).2 every.2⟩

theorem PassesDown.everyIn (h : PassesDown T Ts Ss)
    (here : ∀ {listed kind info parts}, T (.expr listed kind info parts) → P kind info parts → P' kind info parts) :
    ∀ {ss : List Statement}, Ss ss → EveryIn P Q ss → EveryIn P' (fun _ _ _ => True) ss
  | [], _, _ => by simp [EveryIn]
  | .mk .. :: _, hss, every => by
    rw [EveryIn] at every ⊢
    obtain ⟨parts, rest⟩ := h.statement hss
    exact ⟨trivial, h.everyTerms here parts every.2.1, h.everyIn here rest every.2.2⟩

end

/-- All expressions of the terms are such, and all of the statements in their blocks. -/
def Throughout (M : Info × List Term → Prop) (ts : List Term) : Prop :=
  (∀ node ∈ nodesAll ts, M node) ∧ ∀ s ∈ standing ts, ∀ node ∈ nodesAll s.parts, M node

theorem passesDown_throughout (M : Info × List Term → Prop) : PassesDown (Throughout M [·]) (Throughout M)
    fun ss => ∀ s ∈ standingIn ss, ∀ node ∈ nodesAll s.parts, M node := by
  constructor
  · constructor
    · exact fun h => ⟨fun node hnode => h.1 node (by simp [hnode]), fun s hs => h.2 s (by simpa using hs)⟩
    · exact fun h => ⟨fun node hnode => h.1 node (by simpa using hnode), fun s hs => h.2 s (by simpa using hs)⟩
    · intro t ts h
      rw [Throughout, standing_cons, nodesAll, forall_mem_append, forall_mem_append] at h
      exact ⟨⟨by simpa using h.1.1, h.2.1⟩, h.1.2, h.2.2⟩
  · exact fun h s hs => h.2 s (by simpa [standingIn] using hs)
  · intro kind info parts ss h
    simp only [mem_standingIn_cons] at h
    exact ⟨⟨h _ (.inl rfl), fun s hs => h s (.inr (.inl hs))⟩, fun s hs => h s (.inr (.inr hs))⟩

/-- What is expanded in a file are its checks. -/
theorem SettledFile.every {q : Package} {f : SourceFile} (h : SettledFile c0 n0 k f.tree.term t c l)
    (gleaned : Gleaned q c0) (hf : q.files[k]? = some f) :
    f.tree.term.Every (IsCheck l) (fun _ _ _ => True) := by
  have distinct := gleaned.distinct_terms hf
  -- at a node that is expanded stands the check
  have known : Throughout (fun node => l node.1.id ≠ none → AreCheckParts node.2) [f.tree.term] := by
    have stands : ∀ {i}, l i ≠ none → ∃ stmt, StandsIn (standing [f.tree.term]) stmt i := by
      intro i hl
      obtain ⟨e, he⟩ := Option.ne_none_iff_exists'.mp hl
      obtain ⟨b, hb⟩ := h.keys he
      exact ⟨_, gleaned.stands_in hf hb⟩
    constructor
    · intro node hnode hl
      obtain ⟨_, s', hs', -, node', hnode', hid, -⟩ := stands hl
      exact absurd hid.symm (distinct.outside hnode hs' hnode')
    · intro s hs node hnode hl
      obtain ⟨_, s', hs', -, node', hnode', hid, check⟩ := stands hl
      obtain rfl := distinct.owner hs' hs hnode' hnode hid
      rwa [distinct.node hs hnode hnode' hid.symm]
  refine (passesDown_throughout _).every (fun {listed kind info parts} known expr hl => ?_) known f.tree.written
  have check := known.1 (info, parts) (by simp) hl
  obtain ⟨ellipsis, rfl⟩ := kind_of_checkParts expr check
  obtain ⟨fn, operand, rfl⟩ := check
  -- the marker itself is an identifier
  refine ⟨ellipsis, fn, operand.kind, operand.info, operand.parts, rfl, rfl, Classical.not_not.mp fun hfn => ?_⟩
  obtain ⟨_, _, hnil⟩ := known.1 (fn, []) (by simp) hfn
  cases hnil

theorem isReserved_temporaryName (typeName : String) (n : Nat) : isReserved (temporaryName typeName n) = true := by
  rw [isReserved, temporaryName, isPrefixOf_iff_prefix]
  simp [append_assoc]

theorem AreTemporary.ne {names : List String} (temporary : AreTemporary names)
    (user : isReserved x = false) (named : x ≠ "_") : ∀ name ∈ names, name ≠ x := by
  rintro name hname rfl
  rcases temporary name hname with rfl | ⟨typeName, n, rfl⟩
  · exact named rfl
  · rw [isReserved_temporaryName] at user
    cases user

/-- What is made for checks has reserved names. -/
theorem SettledFile.hides (h : SettledFile c0 n0 k t0 t c l) (user : isReserved x = false)
    (named : x ≠ "_") : l.Hides x := by
  have stems : ∀ {i e}, l i = some e → ∃ info b n n', e.Stems info c0 b n n' := by
    intro i e he
    obtain ⟨b, hb⟩ := h.keys he
    obtain ⟨info, n, n', stems⟩ := h.stems he hb
    exact ⟨info, b, n, n', stems⟩
  refine ⟨fun {i e} he y hy => ?_, fun {i e} he => ?_, ?_⟩
  · obtain ⟨info, b, n, n', slot, values, errVar, m, m', -, -, made, names⟩ := stems he
    obtain ⟨n1, prelude⟩ := made.prelude
    obtain ⟨hnames, -⟩ := checkPrelude_guard (prelude (.ident ⟨0, {}⟩ x))
    rcases mem_append.mp hy with hy | hy
    · have : y.ident? ∈ (values ++ [errVar]).map some := by
        rw [← hnames]
        exact mem_map_of_mem hy
      obtain ⟨name, hname, hy⟩ := mem_map.mp this
      exact ⟨name, hy.symm, names.ne user named name hname⟩
    · obtain ⟨name, hname, hy⟩ := made.named y hy
      exact ⟨name, hy, names.ne user named name hname⟩
  · obtain ⟨info, b, n, n', slot, values, errVar, m, m', -, -, made, -⟩ := stems he
    obtain ⟨n1, prelude⟩ := made.prelude
    obtain ⟨-, _, _, _, _, _, _, _, _, _, _, hguard, -⟩ := checkPrelude_guard (prelude (.ident ⟨0, {}⟩ x))
    rw [hguard]
    rfl
  · rintro rfl
    cases user

end Passed

/-- **A name means after the passes what it meant before, unless its declaration
is left behind.** The operand of an expanded check is resolved before the
statement of the check, so the declarations of that statement are out of its
sight: those of a header and those of a group. All else means what it meant. -/
theorem passes_resolve {inputs : List SourceInput} {p q : Package} {c : Collected}
    {files : List SourceFile} {state : ExpandState} {k : Nat} {f₀ f : SourceFile} {x : String}
    (assembled : Package.assemble inputs = .ok p) (collected : p.collect = .ok (q, c))
    (passes : Passes q.files ⟨c, ∅, q.nextId⟩ files state) (hf₀ : q.files[k]? = some f₀)
    (hf : files[k]? = some f) (user : isReserved x = false) (named : x ≠ "_") :
    ∃ l : Ledger, f₀.tree.term.settle l = ([f.tree.term], []) ∧
      (∀ i, l i ≠ none ↔ c.Checks k i ∧ state.collected.checks.get? i = none) ∧
      ∀ u r, .use u r ∈ f₀.tree.meanings x → ∃ r', (∀ r'', .use u r'' ∈ f.tree.meanings x ↔ r'' = r') ∧
        (r' = r ↔ ∀ d, r = some d → ¬ LeftIn l u d (standing [f₀.tree.term])) := by
  have gleaned := gleaned_of_collect assembled collected
  have underway := passes.underway gleaned.distinct gleaned.marked
  obtain ⟨l, settled⟩ := underway.settled hf₀ hf
  have once := underway.once hf
  refine ⟨l, settled.tree, fun i => ⟨fun hl => ?_, fun ⟨⟨b, hb⟩, hnone⟩ hl => ?_⟩, fun u r hu => ?_⟩
  · obtain ⟨e, he⟩ := Option.ne_none_iff_exists'.mp hl
    obtain ⟨b, hb⟩ := settled.keys he
    refine ⟨⟨b, hb⟩, ?_⟩
    rw [settled.checks hb, he]
    rfl
  · rw [settled.checks hb, hl] at hnone
    cases hnone
  · have outside : ∀ i ∈ f₀.tree.term.own, l i = none := fun i hi =>
      Classical.not_not.mp fun hl => by
        obtain ⟨e, he⟩ := Option.ne_none_iff_exists'.mp hl
        exact (gleaned.marked hf₀).outside (settled.keys he) hi
    obtain ⟨r', hr', shifted⟩ := File.carried (settled.hides user named) (settled.every gleaned hf₀)
      (gleaned.distinct_file hf₀) settled.tree outside hu
    refine ⟨r', fun r'' => ⟨fun hr'' => ?_, fun h => h ▸ hr'⟩, shifted⟩
    cases Term.meaning_unique once hr' hr'' rfl
    rfl

/-- A check behind the header that declares what it uses. -/
def shadowedOperand : SourceInput :=
  ⟨"f.go2", "package main\nfunc f() error \x7b\n\tx := 1\n\tif x := g(); check h(x) \x7b\n\t\treturn nil\n" ++
    "\t\x7d\n\treturn nil\n\x7d\n", true⟩

/-- The type of the check. -/
def conditionType : TypeInfo :=
  { types := (∅ : Std.TreeMap NodeId Ty).insert 15 (.tuple [.basic .bool, .named "" "error"]) }

theorem passes_resolve_shadowedOperand : ∃ p q c f₀ state files f, Package.assemble [shadowedOperand] = .ok p ∧
      p.collect = .ok (q, c) ∧ q.files[0]? = some f₀ ∧
      Passes q.files ⟨c, ∅, q.nextId⟩ files state ∧ files[0]? = some f ∧
      .use 13 (some 7) ∈ f₀.tree.meanings "x" ∧ .use 13 (some 4) ∈ f.tree.meanings "x" ∧
      ∃ l : Ledger, f₀.tree.term.settle l = ([f.tree.term], []) ∧
        (∀ i, l i ≠ none ↔ c.Checks 0 i ∧ state.collected.checks.get? i = none) ∧
        ∀ u r, .use u r ∈ f₀.tree.meanings "x" → ∃ r', (∀ r'', .use u r'' ∈ f.tree.meanings "x" ↔ r'' = r') ∧
            (r' = r ↔ ∀ d, r = some d → ¬ LeftIn l u d (standing [f₀.tree.term])) := by
  have run : (collectInputs [shadowedOperand]).map (fun (_, q, c) =>
      q.files[0]?.map fun f => (f.isMarked, (expandFile conditionType 0 f.tree ⟨c, ∅, q.nextId⟩).fault.isNone,
        decide (.use 13 (some 7) ∈ f.tree.meanings "x"),
        decide (.use 13 (some 4) ∈ (expandFile conditionType 0 f.tree ⟨c, ∅, q.nextId⟩).tree.meanings "x")))
      = some (some (true, true, true, true)) := by decide +kernel
  obtain ⟨⟨p, q, c⟩, h, run⟩ := Option.map_eq_some_iff.mp run
  obtain ⟨hp, hq⟩ := collect_of_collectInputs h
  obtain ⟨f₀, hf₀, run⟩ := Option.map_eq_some_iff.mp run
  obtain ⟨marked, run⟩ := Prod.mk.inj run
  obtain ⟨going, run⟩ := Prod.mk.inj run
  obtain ⟨before, after⟩ := Prod.mk.inj run
  have start : Passes q.files ⟨c, ∅, q.nextId⟩ q.files ⟨c, ∅, q.nextId⟩ := .none
  have passes := start.pass conditionType hf₀ marked (Option.isNone_iff_eq_none.mp going)
  have hf := getElem?_set_self (a := { f₀ with
    tree := (expandFile conditionType 0 f₀.tree ⟨c, ∅, q.nextId⟩).tree })
    (List.getElem?_eq_some_iff.mp hf₀).1
  exact ⟨p, q, c, f₀, _, _, _, hp, hq, hf₀, passes, hf, of_decide_eq_true before,
    of_decide_eq_true after, passes_resolve hp hq passes hf₀ hf (by decide) (by decide)⟩

end CheckHandle
