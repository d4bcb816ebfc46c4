import CheckHandle.Proofs.Progress
import CheckHandle.Proofs.Underway

/-!
# Definitions and guards stand before their statement

In the place of a statement of a block stand the definitions and guards of its
first checks, one pair for each and in their order, and after them what is left
of the statement. This holds after any passes, with any types.
-/

namespace CheckHandle

open List

attribute [local simp] Ledger.insertedAt

/-- The checks of a statement, in post-order. -/
def Collected.checksOf (c : Collected) (s : Statement) : List (Info × List Term) :=
  (nodesAll s.parts).filter fun node => (c.checks.get? node.1.id).isSome

/-- The statement binds `names` to the results of `operand`. -/
def IsDefinition (names : List String) (operand : List Term) (define : Statement) : Prop :=
  ∃ info targets, targets.map Expr.ident? = names.map some ∧ define = .mk (.assign .define) info
      [.group .targets none (exprTerms false targets), .group .list none operand]

/-- The statement tests the error in `errVar` against `nil`, and handles it as
the chain says. -/
def IsGuard (handlers : List Handler) (chain : List Nat) (errVar : String) (guard : Statement) : Prop :=
  ∃ cond test err nil block default body n n',
    guard = Stmt.statement (.cond cond none (.binary test .ne (.ident err errVar) (.ident nil "nil"))
      ⟨block, body⟩ none) ∧
    handlingBody chain handlers errVar default n = (body, n')

/-- The definition and the guard of the check at a node. The last name is that
of the error. -/
def IsPrelude (c : Collected) (l : Ledger) (node : Info × List Term) (inserted : List Statement) : Prop :=
  ∃ b fn operand values errVar define guard, c.checks.get? node.1.id = some b ∧
    node.2 = [.expr false (.ident checkFunc) fn [], .group .list none [operand]] ∧
    inserted = [define, guard] ∧ IsDefinition (values ++ [errVar]) (operand.settle l).1 define ∧
    IsGuard c.handlers b.chain errVar guard

/-- The statement was a check and nothing else, and this check is no longer
pending. -/
def IsSpentCheck (c₀ c : Collected) (s : Statement) : Prop :=
  ∃ kind node, s = .mk .exprStmt s.info [.expr false kind node.1 node.2] ∧ node ∈ c₀.checksOf s ∧
    c.checks.get? node.1.id = none

/-- What stands in the place of `s` if `c₀` was collected and `c` is pending:
what was made for the first `k` checks, and the rest of the statement. -/
structure Segment (c₀ c : Collected) (l : Ledger) (s : Statement) (k : Nat) (segment : List Statement) : Prop where
  le_length : k ≤ (c₀.checksOf s).length
  expanded : ∀ node ∈ (c₀.checksOf s).take k, c.checks.get? node.1.id = none ∧ IsPrelude c₀ l node (l.insertedAt node)
  pending : ∀ node ∈ (c₀.checksOf s).drop k, c.checks.get? node.1.id = c₀.checks.get? node.1.id
  eq_append : ∃ rest, segment = ((c₀.checksOf s).take k).flatMap l.insertedAt ++ rest ∧
    (rest = [.mk s.kind s.info (settleAll l s.parts).1] ∨ rest = [] ∧ IsSpentCheck c₀ c s)

/-- In a list in which nothing new comes after something old, the new elements
are the first ones. -/
theorem exists_take_drop {α : Type} {P : α → Prop} {xs : List α} (h : xs.Pairwise fun x y => ¬ P x → ¬ P y) :
    ∃ k ≤ xs.length, (∀ x ∈ xs.take k, P x) ∧ ∀ x ∈ xs.drop k, ¬ P x := by
  induction xs with
  | nil => exact ⟨0, .refl, nofun, nofun⟩
  | cons x xs ih =>
    obtain ⟨hx, hxs⟩ := pairwise_cons.mp h
    by_cases hP : P x
    · obtain ⟨k, hk, htake, hdrop⟩ := ih hxs
      refine ⟨k + 1, Nat.succ_le_succ hk, ?_, hdrop⟩
      rw [take_succ_cons]
      exact forall_mem_cons.mpr ⟨hP, htake⟩
    · exact ⟨0, Nat.zero_le _, nofun, forall_mem_cons.mpr ⟨hP, fun y hy => hx y hy hP⟩⟩

section Segment

variable {q : Package} {c c' : Collected} {k : Nat} {f : SourceFile} {s : Statement}
  {t : Term} {l : Ledger} (gleaned : Gleaned q c) (hf : q.files[k]? = some f)
  (hs : s ∈ standing [f.tree.term])

include gleaned hf hs

variable {node : Info × List Term} {b : CheckBinding}

/-- A check among the expressions of a statement is bound to it. -/
theorem bound_of_node (hnode : node ∈ nodesAll s.parts) (hb : c.checks.get? node.1.id = some b) :
    c.Pending k node.1.id b ∧ b.stmt = s.info.id ∧ AreCheckParts node.2 := by
  have distinct := gleaned.distinct_terms hf
  obtain ⟨block, hblock, hs'⟩ := mem_flatMap.mp hs
  have hcount : 0 < f.tree.term.count node.1.id := by
    have hown : node.1.id ∈ s.own := by
      rw [Statement.own, ownAll_eq_nodes]
      exact mem_map_of_mem hnode
    simpa [countAll] using countAll_pos_of_blocks hblock hs' hown
  have pending := gleaned.pending_of_count hf hb hcount
  obtain ⟨s', hs', hstmt, node', hnode', hid, parts⟩ := gleaned.stands_in hf pending
  cases distinct.owner hs hs' hnode hnode' hid.symm
  cases distinct.node hs hnode hnode' hid.symm
  exact ⟨pending, hstmt.symm, parts⟩

/-- The checks of a statement are those that are bound to it. -/
theorem bound_iff_mem_checksOf {i : NodeId} (hb : c.Pending k i b) :
    b.stmt = s.info.id ↔ i ∈ (c.checksOf s).map (·.1.id) := by
  constructor
  · intro hstmt
    obtain ⟨s', hs', hid, node, hnode, rfl, -⟩ := gleaned.stands_in hf hb
    cases (gleaned.distinct_terms hf).statement hs hs' (hstmt.symm.trans hid.symm)
    refine mem_map_of_mem (mem_filter.mpr ⟨hnode, ?_⟩)
    rw [hb.1]
    rfl
  · intro hi
    obtain ⟨node, hnode, rfl⟩ := mem_map.mp hi
    exact (bound_of_node gleaned hf hs (mem_filter.mp hnode).1 hb.1).2.1

variable (settled : SettledFile c q.nextId k f.tree.term t c' l)

include settled

/-- What was made for a check is its definition and its guard. -/
theorem isPrelude_insertedAt (hnode : node ∈ nodesAll s.parts) (hl : l node.1.id ≠ none) :
    IsPrelude c l node (l.insertedAt node) := by
  obtain ⟨e, he⟩ := Option.ne_none_iff_exists'.mp hl
  obtain ⟨b, hb⟩ := settled.keys he
  obtain ⟨-, -, fn, operand, hparts⟩ := bound_of_node gleaned hf hs hnode hb.1
  obtain ⟨info, _, _, slot, values, errVar, _, n', -, -, made, -⟩ := settled.stems he hb
  obtain ⟨_, hprelude⟩ := made.prelude
  obtain ⟨hnames, cond, test, err, nil, block, copies, default, _, n1, n2, hguard, -, hcopies⟩ :=
    checkPrelude_guard (hprelude operand)
  have hbody : handlingBody b.chain c.handlers errVar default n1 = _ :=
    fresh_bind.mpr ⟨copies, n2, hcopies, rfl⟩
  -- the function that marks a check is no check itself
  have hfn : l fn.id = none := by
    rcases hfn : l fn.id with _ | e'
    · rfl
    · obtain ⟨b', hb'⟩ := settled.keys hfn
      have hmem : (fn, []) ∈ nodesAll s.parts := nodesAll_trans hnode (by
        rw [hparts]
        simp [nodesAll, Term.nodes])
      obtain ⟨-, -, _, _, h⟩ := bound_of_node gleaned hf hs hmem hb'.1
      cases h
  refine ⟨b, fn, operand.term true, values, errVar, _, e.guard.statement, hb.1, hparts, ?_,
    ⟨e.define, e.names, hnames, rfl⟩,
    ⟨cond, test, err, nil, block, default, _, n1, n2, by rw [hguard], hbody⟩⟩
  simp [he, hparts, settleAll, Term.settle, hfn, Expanded.inserted, Expanded.definition]

omit gleaned hf hs in
theorem insertedAt_eq_nil (h : c.checks.get? node.1.id = none) : l.insertedAt node = [] := by
  rcases hl : l node.1.id with _ | e
  · simp [hl]
  · obtain ⟨b, hb⟩ := settled.keys hl
    cases h.symm.trans hb.1

omit gleaned hf hs in
/-- What goes before a statement was made for its checks. -/
theorem settleAll_before_checksOf : (settleAll l s.parts).2 = (c.checksOf s).flatMap l.insertedAt := by
  rw [settleAll_before, Collected.checksOf]
  induction nodesAll s.parts with
  | nil => rfl
  | cons node nodes ih =>
    rw [flatMap_cons, ih, filter_cons]
    rcases hnode : c.checks.get? node.1.id with _ | b
    · rw [insertedAt_eq_nil settled hnode]
      rfl
    · rfl

omit gleaned hf in
/-- Only of a check that was a whole statement nothing remains. -/
theorem remaining_settled : remaining s.kind s.info s.parts (settleAll l s.parts).1
      = [.mk s.kind s.info (settleAll l s.parts).1] ∨
    remaining s.kind s.info s.parts (settleAll l s.parts).1 = [] ∧ IsSpentCheck c c' s := by
  unfold remaining
  split
  case isFalse => exact .inl rfl
  case isTrue h =>
    refine .inr ⟨rfl, ?_⟩
    obtain ⟨block, hblock, hs'⟩ := mem_flatMap.mp hs
    obtain ⟨x, rfl⟩ := f.tree.exists_stmt (by simpa [blocksAll] using hblock) hs'
    obtain ⟨hkind, -, hparts⟩ := h
    cases x <;> try cases hkind
    case expr info x =>
      have hnode : (x.info, x.parts) ∈ nodesAll (Stmt.statement (.expr info x)).parts := by
        simp [Stmt.statement, Statement.parts, Stmt.parts, nodesAll, Term.nodes]
      simp only [Stmt.statement, Statement.parts, Stmt.parts, settleAll_singleton, Term.settle]
        at hparts
      rcases hl : l x.info.id with _ | e
      · rw [hl] at hparts
        cases hparts
      · obtain ⟨b, hb⟩ := settled.keys hl
        refine ⟨x.kind, (x.info, x.parts), rfl, mem_filter.mpr ⟨hnode, ?_⟩, ?_⟩
        · rw [hb.1]
          rfl
        · rw [settled.checks hb, hl]
          rfl

/-- What a statement has become. -/
theorem exists_segment (inTurn : s.own.Pairwise fun i j => c.Checks k i → l i = none → l j = none) :
    ∃ n, Segment c c' l s n (s.settle l) := by
  have turn : (c.checksOf s).Pairwise fun m n => ¬ l m.1.id ≠ none → ¬ l n.1.id ≠ none := by
    rw [Statement.own, ownAll_eq_nodes, pairwise_map] at inTurn
    refine ((inTurn.sublist filter_sublist).imp_of_mem fun {m n} hm hn h hl => ?_)
    obtain ⟨hm, hcheck⟩ := mem_filter.mp hm
    obtain ⟨b, hb⟩ := Option.isSome_iff_exists.mp hcheck
    exact not_not_intro (h ⟨b, (bound_of_node gleaned hf hs hm hb).1⟩ (Classical.not_not.mp hl))
  obtain ⟨n, hn, htake, hdrop⟩ := exists_take_drop turn
  have hcheck : ∀ node ∈ c.checksOf s, node ∈ nodesAll s.parts ∧
      c'.checks.get? node.1.id = if (l node.1.id).isSome then none else c.checks.get? node.1.id := by
    intro node hnode
    obtain ⟨hnode, hcheck⟩ := mem_filter.mp hnode
    obtain ⟨b, hb⟩ := Option.isSome_iff_exists.mp hcheck
    rw [settled.checks (bound_of_node gleaned hf hs hnode hb).1, hb]
    exact ⟨hnode, rfl⟩
  refine ⟨n, hn, fun node hnode => ?_, fun node hnode => ?_, _, ?_, remaining_settled hs settled⟩
  · obtain ⟨hmem, hget⟩ := hcheck node (mem_of_mem_take hnode)
    refine ⟨?_, isPrelude_insertedAt gleaned hf hs settled hmem (htake node hnode)⟩
    rw [hget, if_pos (Option.isSome_iff_ne_none.mpr (htake node hnode))]
  · rw [(hcheck node (mem_of_mem_drop hnode)).2, Classical.not_not.mp (hdrop node hnode)]
    rfl
  · have rest : ((c.checksOf s).drop n).flatMap l.insertedAt = [] := by
      refine flatMap_eq_nil_iff.mpr fun node hnode => ?_
      simp [Classical.not_not.mp (hdrop node hnode)]
    have before := settleAll_before_checksOf (s := s) settled
    rw [← take_append_drop n (c.checksOf s), flatMap_append, rest, append_nil] at before
    rw [← before]
    obtain ⟨kind, info, parts⟩ := s
    simp [Statement.settle, settleIn, Statement.kind, Statement.info, Statement.parts]

end Segment

/-- Each block of the file `t₀`, of which `c` was collected, stands in `t`, when
`c'` is pending, with one segment for each of its statements. -/
def Arranged (c c' : Collected) (file : Nat) (t₀ t : Term) : Prop := ∃ l place, ∀ block ∈ t₀.blocks,
    (block.1, block.2.flatMap place) ∈ t.blocks ∧
    (∀ other ∈ t.blocks, other.1.id = block.1.id → other = (block.1, block.2.flatMap place)) ∧
    ∀ s ∈ block.2, (∀ i b, c.Pending file i b → (b.stmt = s.info.id ↔ i ∈ (c.checksOf s).map (·.1.id))) ∧
      ∃ n, Segment c c' l s n (place s)

/-- A source with two checks in one statement. -/
def twoArguments : SourceInput := ⟨"f.go2", "package main\nfunc f() \x7b\n\th(check a(), check b())\n\x7d\n", true⟩

/-- The type of the first of them. -/
def firstArgument : TypeInfo :=
  { types := (∅ : Std.TreeMap NodeId Ty).insert 6 (.tuple [.basic .int, .named "" "error"]) }

end CheckHandle
