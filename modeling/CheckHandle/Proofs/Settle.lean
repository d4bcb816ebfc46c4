import CheckHandle.Proofs.Expansion

/-!
# Settled terms

What becomes of a term when some of its checks are expanded, told by the
expansions alone: in the place of each of them stands what is used of its
results, and its definition and guard go before the statement that it belongs
to. Settling some checks and later the others is the same as settling all of
them at once (`settleAll_settleAll`), as long as no check is settled before
one that it has to wait for.
-/

namespace CheckHandle

open List

variable {l : Ledger} {ts : List Term} {ss : List Statement}

/-- The expansions of checks, by the identity of the check. -/
abbrev Ledger := NodeId → Option Expanded

namespace Expanded

/-- The definition of the results, given the operand as a list of arguments. -/
def definition (e : Expanded) (args : Term) : Statement :=
  .mk (.assign .define) e.define [.group .targets none (exprTerms false e.names), args]

/-- What goes before the statement of a check with these parts. -/
def inserted (e : Expanded) : List Term → List Statement
  | [_, args] => [e.definition args, e.guard.statement]
  | _ => []

/-- What stands in the place of a check. -/
def inPlace (e : Expanded) (listed : Bool) : List Term := exprTerms listed (e.uses.getD [])

end Expanded

/-- What remains of a statement whose parts become `parts'`. A check that was
all of its statement leaves nothing of it. -/
def remaining (kind : Kind) (info : Info) (parts parts' : List Term) : List Statement :=
  if kind = .exprStmt ∧ parts ≠ [] ∧ parts' = [] then [] else [.mk kind info parts']

theorem countIn_remaining_le (i : NodeId) (kind : Kind) (info : Info) (parts parts' : List Term) :
    countIn i (remaining kind info parts parts') ≤ info.count i + countAll i parts' := by
  unfold remaining
  split <;> simp [countIn]

mutual

/-- What stands in the place of a term, and what goes before its statement. -/
def Term.settle (l : Ledger) : Term → List Term × List Statement
  | .expr listed kind info parts =>
    match l info.id with
    | none => ([.expr listed kind info (settleAll l parts).1], (settleAll l parts).2)
    | some e =>
      (e.inPlace listed, (settleAll l parts).2 ++ e.inserted (settleAll l parts).1)
  | .group kind info parts => ([.group kind info (settleAll l parts).1], (settleAll l parts).2)
  | .fixed kind info parts => ([.fixed kind info parts], [])
  | .block info ss => ([.block info (settleIn l ss)], [])

def settleAll (l : Ledger) : List Term → List Term × List Statement
  | [] => ([], [])
  | t :: ts => ((t.settle l).1 ++ (settleAll l ts).1, (t.settle l).2 ++ (settleAll l ts).2)

def settleIn (l : Ledger) : List Statement → List Statement
  | [] => []
  | .mk kind info parts :: ss =>
    (settleAll l parts).2 ++ remaining kind info parts (settleAll l parts).1 ++ settleIn l ss

end

/-- What becomes of one statement. -/
def Statement.settle (l : Ledger) (s : Statement) : List Statement := settleIn l [s]

theorem settleAll_append (l : Ledger) (ts us : List Term) :
    settleAll l (ts ++ us) = ((settleAll l ts).1 ++ (settleAll l us).1,
      (settleAll l ts).2 ++ (settleAll l us).2) := by
  induction ts with
  | nil => simp [settleAll]
  | cons t ts ih => simp [settleAll, ih]

theorem settleAll_singleton (l : Ledger) (t : Term) : settleAll l [t] = t.settle l := by
  simp [settleAll]

theorem settleIn_append (l : Ledger) (ss ts : List Statement) :
    settleIn l (ss ++ ts) = settleIn l ss ++ settleIn l ts :=
  append_of_cons rfl (fun ⟨_, _, _⟩ _ => by simp [settleIn]) ss ts

/-- Statements of a block are settled one by one. -/
theorem settleIn_eq_flatMap (l : Ledger) (ss : List Statement) :
    settleIn l ss = ss.flatMap (Statement.settle l) := by
  induction ss with
  | nil => rfl
  | cons s ss ih =>
    show settleIn l ([s] ++ ss) = _
    rw [settleIn_append, ih, flatMap_cons]
    rfl

/-- The parts of a call of one argument. -/
theorem Expr.parts_of_argsOf? {x operand : Expr} {name : String} (h : x.argsOf? name = some [operand]) :
    ∃ info, x.parts = [.expr false (.ident name) info [], .group .list none [operand.term true]] := by
  unfold Expr.argsOf? at h
  split at h
  · split at h
    · rename_i hname
      cases h
      cases eq_of_beq hname
      exact ⟨_, rfl⟩
    · cases h
  · cases h

/-! ## What a ledger says of the nodes of a term -/

theorem Info.count_self_pos (info : Info) : 0 < info.count info.id := by
  rw [Info.count_self]
  exact Nat.one_pos

section Agreement

variable {l' : Ledger}

mutual

/-- Ledgers that agree on the nodes of a term settle it alike. -/
theorem Term.settle_congr : ∀ {t : Term}, (∀ i, 0 < t.count i → l i = l' i) → t.settle l = t.settle l'
  | .expr listed kind info parts, h => by
    have hparts : settleAll l parts = settleAll l' parts :=
      settleAll_congr fun i hi => h i (by simp only [Term.count]; omega)
    have hid : l info.id = l' info.id := h info.id (by simp only [Term.count, Info.count_self]; omega)
    rw [Term.settle, Term.settle, hparts, hid]
  | .group kind info parts, h => by
    have hparts : settleAll l parts = settleAll l' parts :=
      settleAll_congr fun i hi => h i (by simp only [Term.count]; omega)
    rw [Term.settle, Term.settle, hparts]
  | .fixed kind info parts, _ => by rw [Term.settle, Term.settle]
  | .block info ss, h => by
    have hss : settleIn l ss = settleIn l' ss :=
      settleIn_congr fun i hi => h i (by simp only [Term.count]; omega)
    rw [Term.settle, Term.settle, hss]

theorem settleAll_congr : ∀ {ts : List Term}, (∀ i, 0 < countAll i ts → l i = l' i) →
    settleAll l ts = settleAll l' ts
  | [], _ => by rw [settleAll, settleAll]
  | t :: ts, h => by
    have ht : t.settle l = t.settle l' := Term.settle_congr fun i hi => h i (by simp only [countAll]; omega)
    have hts : settleAll l ts = settleAll l' ts :=
      settleAll_congr fun i hi => h i (by simp only [countAll]; omega)
    rw [settleAll, settleAll, ht, hts]

theorem settleIn_congr : ∀ {ss : List Statement},
    (∀ i, 0 < countIn i ss → l i = l' i) → settleIn l ss = settleIn l' ss
  | [], _ => by rw [settleIn, settleIn]
  | .mk kind info parts :: ss, h => by
    have hparts : settleAll l parts = settleAll l' parts :=
      settleAll_congr fun i hi => h i (by simp only [countIn]; omega)
    have hss : settleIn l ss = settleIn l' ss :=
      settleIn_congr fun i hi => h i (by simp only [countIn]; omega)
    rw [settleIn, settleIn, hparts, hss]

end

end Agreement

/-! ## The checks of a statement

The expressions of a statement, without those in the blocks inside it, in the
order in which they are evaluated. -/

mutual

def Term.own : Term → List NodeId
  | .expr _ _ info parts => ownAll parts ++ [info.id]
  | .group _ _ parts => ownAll parts
  | .fixed .. => []
  | .block .. => []

def ownAll : List Term → List NodeId
  | [] => []
  | t :: ts => t.own ++ ownAll ts

end

/-- The expressions of a statement in post-order. -/
def Statement.own (s : Statement) : List NodeId := ownAll s.parts

theorem ownAll_append (ts us : List Term) : ownAll (ts ++ us) = ownAll ts ++ ownAll us :=
  append_of_cons rfl (fun _ _ => by simp [ownAll]) ts us

mutual

/-- The expressions of a statement with their parts, in post-order. -/
def Term.nodes : Term → List (Info × List Term)
  | .expr _ _ info parts => nodesAll parts ++ [(info, parts)]
  | .group _ _ parts => nodesAll parts
  | .fixed .. => []
  | .block .. => []

def nodesAll : List Term → List (Info × List Term)
  | [] => []
  | t :: ts => t.nodes ++ nodesAll ts

end

theorem nodesAll_append (ts us : List Term) : nodesAll (ts ++ us) = nodesAll ts ++ nodesAll us :=
  append_of_cons rfl (fun _ _ => by simp [nodesAll]) ts us

mutual

theorem Term.own_eq_nodes : ∀ t : Term, t.own = t.nodes.map (·.1.id)
  | .expr _ _ info parts | .group _ _ parts => by simp [Term.own, Term.nodes, ownAll_eq_nodes parts]
  | .fixed .. | .block .. => by simp [Term.own, Term.nodes]

theorem ownAll_eq_nodes : ∀ ts : List Term, ownAll ts = (nodesAll ts).map (·.1.id)
  | [] => by simp [ownAll, nodesAll]
  | t :: ts => by simp [ownAll, nodesAll, Term.own_eq_nodes t, ownAll_eq_nodes ts]

end

/-- What holds of a term or of a list of terms holds of the parts. -/
structure PassesOn (T : Term → Prop) (Ts : List Term → Prop) : Prop where
  expr : ∀ {listed kind info parts}, T (.expr listed kind info parts) → Ts parts
  group : ∀ {kind info parts}, T (.group kind info parts) → Ts parts
  cons : ∀ {t ts}, Ts (t :: ts) → T t ∧ Ts ts

variable {T : Term → Prop} {Ts : List Term → Prop} {Ss : List Statement → Prop} {node : Info × List Term}
  {b : Info × List Statement}

mutual

theorem PassesOn.of_nodes (h : PassesOn T Ts) :
    ∀ {t : Term}, T t → node ∈ t.nodes → ∃ listed kind, T (.expr listed kind node.1 node.2)
  | .expr listed kind info parts, ht, hnode => by
    rw [Term.nodes, mem_append, mem_singleton] at hnode
    rcases hnode with hnode | rfl
    · exact h.of_nodesAll (h.expr ht) hnode
    · exact ⟨listed, kind, ht⟩
  | .group _ _ parts, ht, hnode => by
    rw [Term.nodes] at hnode
    exact h.of_nodesAll (h.group ht) hnode
  | .fixed .., _, hnode | .block .., _, hnode => by simp [Term.nodes] at hnode

theorem PassesOn.of_nodesAll (h : PassesOn T Ts) :
    ∀ {ts : List Term}, Ts ts → node ∈ nodesAll ts → ∃ listed kind, T (.expr listed kind node.1 node.2)
  | [], _, hnode => by simp [nodesAll] at hnode
  | t :: ts, hts, hnode => by
    rw [nodesAll, mem_append] at hnode
    rcases hnode with hnode | hnode
    · exact h.of_nodes (h.cons hts).1 hnode
    · exact h.of_nodesAll (h.cons hts).2 hnode

end

/-- The expressions in an expression are expressions of the same statement. -/
theorem passesOn_nodes (ns : List (Info × List Term)) : PassesOn (·.nodes ⊆ ns) (nodesAll · ⊆ ns) := by
  constructor <;> intros <;> simp_all [Term.nodes, nodesAll]

theorem nodesAll_trans (h : node ∈ nodesAll ts) : nodesAll node.2 ⊆ nodesAll ts :=
  have ⟨_, _, inside⟩ := (passesOn_nodes (nodesAll ts)).of_nodesAll (List.Subset.refl _) h
  (passesOn_nodes _).expr inside

/-- What holds of a term, of a list of terms or of statements holds of all inside. -/
structure PassesDown (T : Term → Prop) (Ts : List Term → Prop) (Ss : List Statement → Prop) : Prop
    extends PassesOn T Ts where
  block : ∀ {info ss}, T (.block info ss) → Ss ss
  statement : ∀ {kind info parts ss}, Ss (.mk kind info parts :: ss) → Ts parts ∧ Ss ss

theorem passesDown_count (i : NodeId) (n : Nat) :
    PassesDown (·.count i ≤ n) (countAll i · ≤ n) (countIn i · ≤ n) := by
  constructor
  · constructor <;> intros <;> simp only [Term.count, countAll] at * <;> omega
  · intros
    simp only [Term.count] at *
    omega
  · intros
    simp only [countIn] at *
    omega

theorem countAll_le_of_nodes {u : NodeId} (h : node ∈ nodesAll ts) :
    countAll u node.2 ≤ countAll u ts :=
  have ⟨_, _, le⟩ := (passesDown_count u _).of_nodesAll .refl h
  (passesDown_count u _).expr le

theorem countAll_pos_of_own {i : NodeId} (h : i ∈ ownAll ts) : 0 < countAll i ts := by
  rw [ownAll_eq_nodes] at h
  obtain ⟨node, hnode, rfl⟩ := mem_map.mp h
  obtain ⟨_, _, le⟩ := (passesDown_count node.1.id _).of_nodesAll .refl hnode
  have := node.1.count_self_pos
  simp only [Term.count] at le
  omega

section NotOwn

mutual

/-- A term none of whose own expressions is expanded stays one term, with
nothing before it. -/
theorem Term.settle_of_own : ∀ (t : Term), (∀ i ∈ t.own, l i = none) → ∃ t', t.settle l = ([t'], [])
  | .expr listed kind info parts, h => by
    obtain ⟨parts', -, hparts⟩ := settleAll_of_own parts fun i hi =>
      h i (by rw [Term.own]; exact mem_append_left _ hi)
    have hid : l info.id = none := h _ (by simp [Term.own])
    exact ⟨.expr listed kind info parts', by simp only [Term.settle, hid, hparts]⟩
  | .group kind info parts, h => by
    obtain ⟨parts', -, hparts⟩ := settleAll_of_own parts fun i hi =>
      h i (by rw [Term.own]; exact hi)
    exact ⟨.group kind info parts', by simp only [Term.settle, hparts]⟩
  | .fixed kind info parts, _ => ⟨.fixed kind info parts, by rw [Term.settle]⟩
  | .block info ss, _ => ⟨.block info (settleIn l ss), by rw [Term.settle]⟩

theorem settleAll_of_own : ∀ (ts : List Term), (∀ i ∈ ownAll ts, l i = none) →
    ∃ ts', ts'.length = ts.length ∧ settleAll l ts = (ts', [])
  | [], _ => ⟨[], rfl, by rw [settleAll]⟩
  | t :: ts, h => by
    obtain ⟨t', ht⟩ := Term.settle_of_own t fun i hi =>
      h i (by rw [ownAll]; exact mem_append_left _ hi)
    obtain ⟨ts', hlength, hts⟩ := settleAll_of_own ts fun i hi =>
      h i (by rw [ownAll]; exact mem_append_right _ hi)
    exact ⟨t' :: ts', by simp [hlength], by rw [settleAll, ht, hts]; rfl⟩

end

end NotOwn

/-! ## Terms without expanded checks -/

mutual

theorem Term.settle_empty : ∀ t : Term, t.settle (fun _ => none) = ([t], [])
  | .expr listed kind info parts | .group kind info parts => by simp only [Term.settle, settleAll_empty parts]
  | .fixed kind info parts => by rw [Term.settle]
  | .block info ss => by rw [Term.settle, settleIn_empty ss]

theorem settleAll_empty : ∀ ts : List Term, settleAll (fun _ => none) ts = (ts, [])
  | [] => by rw [settleAll]
  | t :: ts => by
    rw [settleAll, Term.settle_empty t, settleAll_empty ts]
    rfl

theorem settleIn_empty : ∀ ss : List Statement, settleIn (fun _ => none) ss = ss
  | [] => by rw [settleIn]
  | .mk kind info parts :: ss => by
    have remains : remaining kind info parts parts = [.mk kind info parts] := if_neg fun h => h.2.1 h.2.2
    rw [settleIn, settleAll_empty parts, settleIn_empty ss, remains]
    rfl

end

theorem settleAll_of_absent (h : ∀ i, 0 < countAll i ts → l i = none) : settleAll l ts = (ts, []) := by
  rw [settleAll_congr h, settleAll_empty]

theorem settleIn_of_absent (h : ∀ i, 0 < countIn i ss → l i = none) : settleIn l ss = ss := by
  rw [settleIn_congr h, settleIn_empty]

/-! ## The blocks of a term -/

mutual

/-- All blocks in a term, each with its statements. -/
def Term.blocks : Term → List (Info × List Statement)
  | .expr _ _ _ parts => blocksAll parts
  | .group _ _ parts => blocksAll parts
  | .fixed .. => []
  | .block info ss => (info, ss) :: blocksIn ss

def blocksAll : List Term → List (Info × List Statement)
  | [] => []
  | t :: ts => t.blocks ++ blocksAll ts

def blocksIn : List Statement → List (Info × List Statement)
  | [] => []
  | .mk _ _ parts :: ss => blocksAll parts ++ blocksIn ss

end

theorem blocksAll_append (ts us : List Term) : blocksAll (ts ++ us) = blocksAll ts ++ blocksAll us :=
  append_of_cons rfl (fun _ _ => by simp [blocksAll]) ts us

theorem mem_blocksAll {info : Info} (h : .block info ss ∈ ts) : (info, ss) ∈ blocksAll ts := by
  induction ts with
  | nil => cases h
  | cons t ts ih =>
    rw [blocksAll, mem_append]
    rcases mem_cons.mp h with rfl | h
    · rw [Term.blocks]
      exact .inl mem_cons_self
    · exact .inr (ih h)

theorem blocksIn_append (ss ts : List Statement) :
    blocksIn (ss ++ ts) = blocksIn ss ++ blocksIn ts :=
  append_of_cons rfl (fun ⟨_, _, _⟩ _ => by simp [blocksIn]) ss ts

mutual

theorem PassesDown.of_blocks (h : PassesDown T Ts Ss) : ∀ {t : Term}, T t → b ∈ t.blocks → Ss b.2
  | .expr .., ht, hb => by
    rw [Term.blocks] at hb
    exact h.of_blocksAll (h.expr ht) hb
  | .group .., ht, hb => by
    rw [Term.blocks] at hb
    exact h.of_blocksAll (h.group ht) hb
  | .fixed .., _, hb => by simp [Term.blocks] at hb
  | .block .., ht, hb => by
    rw [Term.blocks, mem_cons] at hb
    rcases hb with rfl | hb
    · exact h.block ht
    · exact h.of_blocksIn (h.block ht) hb

theorem PassesDown.of_blocksAll (h : PassesDown T Ts Ss) : ∀ {ts : List Term}, Ts ts → b ∈ blocksAll ts → Ss b.2
  | [], _, hb => by simp [blocksAll] at hb
  | t :: ts, hts, hb => by
    rw [blocksAll, mem_append] at hb
    rcases hb with hb | hb
    · exact h.of_blocks (h.cons hts).1 hb
    · exact h.of_blocksAll (h.cons hts).2 hb

theorem PassesDown.of_blocksIn (h : PassesDown T Ts Ss) :
    ∀ {ss : List Statement}, Ss ss → b ∈ blocksIn ss → Ss b.2
  | [], _, hb => by simp [blocksIn] at hb
  | .mk .. :: ss, hss, hb => by
    rw [blocksIn, mem_append] at hb
    rcases hb with hb | hb
    · exact h.of_blocksAll (h.statement hss).1 hb
    · exact h.of_blocksIn (h.statement hss).2 hb

end

theorem passesDown_blocks (bs : List (Info × List Statement)) :
    PassesDown (·.blocks ⊆ bs) (blocksAll · ⊆ bs) (blocksIn · ⊆ bs) := by
  constructor
  · constructor <;> intros <;> simp_all [Term.blocks, blocksAll]
  · intros
    simp_all [Term.blocks]
  · intros
    simp_all [blocksIn]

/-- The blocks in a block of a term are blocks of the term. -/
theorem Term.blocks_subset {t : Term} (h : b ∈ t.blocks) : blocksIn b.2 ⊆ t.blocks :=
  (passesDown_blocks _).of_blocks (List.Subset.refl _) h

variable {i : NodeId} {s : Statement}

theorem countIn_le_countAll (h : b ∈ blocksAll ts) : countIn i b.2 ≤ countAll i ts :=
  (passesDown_count i _).of_blocksAll .refl h

theorem countIn_le_countIn (h : b ∈ blocksIn ss) :
    countIn i b.2 ≤ countIn i ss :=
  (passesDown_count i _).of_blocksIn .refl h

theorem countIn_pos_of_own (h : s ∈ ss) (hi : i ∈ s.own) : 0 < countIn i ss := by
  induction ss with
  | nil => cases h
  | cons t ss ih =>
    obtain ⟨kind, info, parts⟩ := t
    rw [countIn]
    rcases mem_cons.mp h with rfl | h
    · have : 0 < countAll i parts := countAll_pos_of_own hi
      omega
    · have := ih h
      omega

/-- The nodes of the statements of blocks are nodes of the term. -/
theorem countAll_pos_of_blocks (hb : b ∈ blocksAll ts) (hs : s ∈ b.2) (hi : i ∈ s.own) : 0 < countAll i ts :=
  Nat.lt_of_lt_of_le (countIn_pos_of_own hs hi) (countIn_le_countAll hb)

theorem countIn_pos_of_blocks (hb : b ∈ blocksIn ss) (hs : s ∈ b.2) (hi : i ∈ s.own) :
    0 < countIn i ss :=
  Nat.lt_of_lt_of_le (countIn_pos_of_own hs hi) (countIn_le_countIn hb)

/-! ## Settling in turns -/

namespace Ledger

/-- The expansions of both. -/
def or (d₁ d₂ : Ledger) : Ledger := fun i => (d₁ i).or (d₂ i)

/-- Nothing that `d₂` expands comes before something that `d₁` expands. -/
def Precedes (d₁ d₂ : Ledger) (ids : List NodeId) : Prop := ids.Pairwise fun i j => d₂ i ≠ none → d₁ j = none

/-- `d₂` expands nothing that was made by an expansion of `d₁`, nor what `d₁`
expands itself. -/
structure Apart (d₁ d₂ : Ledger) : Prop where
  keys : ∀ {i e}, d₁ i = some e → d₂ i = none
  made : ∀ {i e j}, d₁ i = some e → 0 < e.count j → d₂ j = none

end Ledger

namespace Expanded

variable {e : Expanded} {d : Ledger}

/-- What is used of the results of an expansion is left alone by ledgers that
expand nothing of it. -/
theorem settle_inPlace (h : ∀ j, 0 < e.count j → d j = none) (listed : Bool) :
    settleAll d (e.inPlace listed) = (e.inPlace listed, []) := by
  refine settleAll_of_absent fun j hj => h j ?_
  rw [inPlace, countAll_exprs] at hj
  unfold count
  omega

theorem inserted_of_length (h : ts.length ≠ 2) : e.inserted ts = [] := by
  match ts, h with
  | [], _ => rfl
  | [_], _ => rfl
  | [_, _], h => simp at h
  | _ :: _ :: _ :: _, _ => rfl

/-- The definition of an expansion carries its operand along. -/
theorem settle_inserted (h : ∀ j, 0 < e.count j → d j = none) (own : ∀ i ∈ ownAll ts, d i = none) :
    settleIn d (e.inserted ts) = e.inserted (settleAll d ts).1 := by
  by_cases hlength : ts.length = 2
  · obtain ⟨fn, args, rfl⟩ : ∃ fn args, ts = [fn, args] := by
      match ts, hlength with
      | [fn, args], _ => exact ⟨fn, args, rfl⟩
    obtain ⟨fn', hfn⟩ := Term.settle_of_own fn fun i hi => own i (by simp [ownAll, hi])
    obtain ⟨args', hargs⟩ := Term.settle_of_own args fun i hi => own i (by simp [ownAll, hi])
    have hnames : settleAll d (exprTerms false e.names) = (exprTerms false e.names, []) :=
      settleAll_of_absent fun j hj => h j (by
        rw [countAll_exprs] at hj
        unfold count
        omega)
    have hguard : settleIn d [e.guard.statement] = [e.guard.statement] :=
      settleIn_of_absent fun j hj => h j (by
        have := e.guard.count_parts j
        simp only [Stmt.statement, countIn] at hj
        unfold count
        omega)
    have hdefinition : settleIn d [e.definition args] = [e.definition args'] := by
      simp [settleIn, definition, settleAll, Term.settle, hnames, hargs, remaining]
    show settleIn d ([e.definition args] ++ [e.guard.statement]) = _
    rw [settleIn_append, hdefinition, hguard]
    simp only [settleAll, hfn, hargs]
    rfl
  · obtain ⟨ts', hts', hsettle⟩ := settleAll_of_own ts own
    rw [inserted_of_length hlength, hsettle, inserted_of_length (by rw [hts']; exact hlength)]
    rfl

end Expanded

section Turns

variable {d₁ d₂ : Ledger}

mutual

/-- What stands in the place of a term was there before, or was made. -/
theorem Term.own_settle (P : NodeId → Prop) (made : ∀ i e j, d₁ i = some e → 0 < e.count j → P j) :
    ∀ t : Term, (∀ i ∈ t.own, P i) → ∀ i ∈ ownAll (t.settle d₁).1, P i
  | .expr listed kind info parts, h => by
    intro i hi
    rw [Term.settle] at hi
    rcases hid : d₁ info.id with _ | e
    · simp only [hid, ownAll, Term.own, append_nil, mem_append, mem_singleton] at hi
      rcases hi with hi | rfl
      · exact ownAll_settle P made parts (fun j hj => h j (by simp [Term.own, hj])) i hi
      · exact h _ (by simp [Term.own])
    · simp only [hid] at hi
      have hcount := countAll_pos_of_own hi
      rw [Expanded.inPlace, countAll_exprs] at hcount
      exact made _ e i hid (by unfold Expanded.count; omega)
  | .group kind info parts, h => by
    intro i hi
    simp only [Term.settle, ownAll, Term.own, append_nil] at hi
    exact ownAll_settle P made parts (fun j hj => h j (by rw [Term.own]; exact hj)) i hi
  | .fixed .., h | .block .., h => by
    intro i hi
    simp [Term.settle, ownAll, Term.own] at hi

theorem ownAll_settle (P : NodeId → Prop) (made : ∀ i e j, d₁ i = some e → 0 < e.count j → P j) :
    ∀ ts : List Term, (∀ i ∈ ownAll ts, P i) → ∀ i ∈ ownAll (settleAll d₁ ts).1, P i
  | [], _ => by
    intro i hi
    simp [settleAll, ownAll] at hi
  | t :: ts, h => by
    intro i hi
    rw [settleAll, ownAll_append, mem_append] at hi
    rw [ownAll, forall_mem_append] at h
    rcases hi with hi | hi
    · exact Term.own_settle P made t h.1 i hi
    · exact ownAll_settle P made ts h.2 i hi

end

/-- What remains of a statement is settled like the statement. -/
theorem settle_remaining (kind : Kind) (info : Info) (parts : List Term) :
    settleIn d₂ (remaining kind info parts (settleAll d₁ parts).1)
      = (settleAll d₂ (settleAll d₁ parts).1).2
        ++ remaining kind info parts (settleAll d₂ (settleAll d₁ parts).1).1 := by
  rcases parts with _ | ⟨t, ts⟩
  · simp [settleAll, remaining, settleIn]
  generalize (settleAll d₁ (t :: ts)).1 = parts'
  rcases parts' with _ | ⟨t', ts'⟩
  · by_cases hkind : kind = .exprStmt <;> simp [settleAll, remaining, settleIn, hkind]
  · have remains : remaining kind info (t :: ts) (t' :: ts') = [.mk kind info (t' :: ts')] :=
      if_neg fun h => nomatch h.2.2
    rw [remains]
    simp only [settleIn, append_nil, remaining, ne_eq, reduceCtorEq, not_false_eq_true]

mutual

theorem Term.settle_or (apart : d₁.Apart d₂) : ∀ t : Term, d₁.Precedes d₂ t.own →
    (∀ b ∈ t.blocks, ∀ s ∈ b.2, d₁.Precedes d₂ s.own) →
    t.settle (d₁.or d₂) = ((settleAll d₂ (t.settle d₁).1).1,
      settleIn d₂ (t.settle d₁).2 ++ (settleAll d₂ (t.settle d₁).1).2)
  | .expr listed kind info parts, own, inner => by
    rw [Term.own, Ledger.Precedes, pairwise_append] at own
    have ih := settleAll_or apart parts own.1 (by rwa [Term.blocks] at inner)
    rcases h1 : d₁ info.id with _ | e
    · rcases h2 : d₂ info.id with _ | e
      · have h : d₁.or d₂ info.id = none := by simp [Ledger.or, h1, h2]
        simp [Term.settle, settleAll, h, h1, h2, ih]
      · have h : d₁.or d₂ info.id = some e := by simp [Ledger.or, h1, h2]
        simp [Term.settle, settleAll, h, h1, h2, ih]
    · have h : d₁.or d₂ info.id = some e := by simp [Ledger.or, h1]
      -- nothing before an expanded check is left for later
      have free : ∀ i ∈ ownAll parts, d₂ i = none := by
        intro i hi
        rcases hd2 : d₂ i with _ | e'
        · rfl
        · have := own.2.2 i hi info.id (mem_singleton_self _) (by simp [hd2])
          rw [h1] at this
          cases this
      have free' : ∀ i ∈ ownAll (settleAll d₁ parts).1, d₂ i = none :=
        ownAll_settle _ (fun _ _ _ => apart.made) parts free
      have made : ∀ j, 0 < e.count j → d₂ j = none := fun j => apart.made h1
      obtain ⟨parts', -, hparts'⟩ := settleAll_of_own _ free'
      simp only [Term.settle, h, h1, ih, settleIn_append, Expanded.settle_inPlace made,
        Expanded.settle_inserted made free', hparts', append_nil]
  | .group kind info parts, own, inner => by
    have ih := settleAll_or apart parts (by rwa [Term.own] at own) (by rwa [Term.blocks] at inner)
    simp [Term.settle, settleAll, ih]
  | .fixed kind info parts, _, _ => by simp [Term.settle, settleAll, settleIn]
  | .block info ss, _, inner => by
    rw [Term.blocks, forall_mem_cons] at inner
    have ih := settleIn_or apart ss inner.1 inner.2
    simp [Term.settle, settleAll, settleIn, ih]

theorem settleAll_or (apart : d₁.Apart d₂) : ∀ ts : List Term, d₁.Precedes d₂ (ownAll ts) →
    (∀ b ∈ blocksAll ts, ∀ s ∈ b.2, d₁.Precedes d₂ s.own) →
    settleAll (d₁.or d₂) ts = ((settleAll d₂ (settleAll d₁ ts).1).1,
      settleIn d₂ (settleAll d₁ ts).2 ++ (settleAll d₂ (settleAll d₁ ts).1).2)
  | [], _, _ => by simp [settleAll, settleIn]
  | t :: ts, own, inner => by
    rw [ownAll, Ledger.Precedes, pairwise_append] at own
    rw [blocksAll, forall_mem_append] at inner
    have iht := Term.settle_or apart t own.1 inner.1
    have ihts := settleAll_or apart ts own.2.1 inner.2
    -- what the second turn puts before the statement on behalf of `t` may go
    -- after what the first did on behalf of `ts`: one of them is nothing
    have swap : settleIn d₂ (settleAll d₁ ts).2 ++ (settleAll d₂ (t.settle d₁).1).2
        = (settleAll d₂ (t.settle d₁).1).2 ++ settleIn d₂ (settleAll d₁ ts).2 := by
      by_cases later : ∃ i ∈ t.own, d₂ i ≠ none
      · obtain ⟨i, hi, hd2⟩ := later
        obtain ⟨_, -, h⟩ := settleAll_of_own ts fun j hj => own.2.2 i hi j hj hd2
        simp [h, settleIn]
      · have free : ∀ i ∈ t.own, d₂ i = none := fun i hi =>
          Classical.not_not.mp fun hd2 => later ⟨i, hi, hd2⟩
        have free' : ∀ i ∈ ownAll (t.settle d₁).1, d₂ i = none := Term.own_settle _ (fun _ _ _ => apart.made) t free
        obtain ⟨_, -, h⟩ := settleAll_of_own _ free'
        simp [h]
    simp only [settleAll, iht, ihts, settleAll_append, settleIn_append, Prod.mk.injEq, true_and]
    rw [append_assoc, append_assoc, append_cancel_left_eq, ← append_assoc, ← append_assoc, swap]

theorem settleIn_or (apart : d₁.Apart d₂) : ∀ ss : List Statement, (∀ s ∈ ss, d₁.Precedes d₂ s.own) →
    (∀ b ∈ blocksIn ss, ∀ s ∈ b.2, d₁.Precedes d₂ s.own) →
    settleIn (d₁.or d₂) ss = settleIn d₂ (settleIn d₁ ss)
  | [], _, _ => by simp [settleIn]
  | .mk kind info parts :: ss, own, inner => by
    rw [forall_mem_cons] at own
    rw [blocksIn, forall_mem_append] at inner
    have ih := settleAll_or apart parts own.1 inner.1
    have ihss := settleIn_or apart ss own.2 inner.2
    rw [settleIn, settleIn, settleIn_append, settleIn_append,
      settle_remaining, ih, ihss, append_assoc (settleIn d₂ _)]

end

mutual

/-- Settling keeps the order of the checks that are left, if all that come
before a settled one are settled as well. -/
theorem Term.filter_own_settle {P : NodeId → Bool} (keys : ∀ i e, d₁ i = some e → P i = false)
    (made : ∀ i e j, d₁ i = some e → 0 < e.count j → P j = false) :
    ∀ t : Term, (t.own.Pairwise fun i j => P i = true → d₁ j = none) →
      (ownAll (t.settle d₁).1).filter P = t.own.filter P
  | .expr listed kind info parts, own => by
    rw [Term.own, pairwise_append] at own
    rcases hid : d₁ info.id with _ | e
    · simp [Term.settle, hid, ownAll, Term.own, filter_ownAll_settle keys made parts own.1]
    · have settled : ∀ i ∈ ownAll parts, ¬ P i = true := by
        intro i hi hP
        have := own.2.2 i hi info.id (mem_singleton_self _) hP
        rw [hid] at this
        cases this
      have placed : ∀ i ∈ ownAll (e.inPlace listed), ¬ P i = true := by
        intro i hi hP
        have hcount := countAll_pos_of_own hi
        rw [Expanded.inPlace, countAll_exprs] at hcount
        rw [made info.id e i hid (by unfold Expanded.count; omega)] at hP
        cases hP
      have self : P info.id = false := keys _ e hid
      simp only [Term.settle, hid, Term.own, filter_append, filter_cons, self,
        filter_eq_nil_iff.mpr settled, filter_eq_nil_iff.mpr placed, filter_nil,
        append_nil, Bool.false_eq_true, if_false]
  | .group kind info parts, own => by
    rw [Term.own] at own
    simp [Term.settle, ownAll, Term.own, filter_ownAll_settle keys made parts own]
  | .fixed .., _ | .block .., _ => by simp [Term.settle, ownAll, Term.own]

theorem filter_ownAll_settle {P : NodeId → Bool} (keys : ∀ i e, d₁ i = some e → P i = false)
    (made : ∀ i e j, d₁ i = some e → 0 < e.count j → P j = false) :
    ∀ ts : List Term, ((ownAll ts).Pairwise fun i j => P i = true → d₁ j = none) →
      (ownAll (settleAll d₁ ts).1).filter P = (ownAll ts).filter P
  | [], _ => by simp [settleAll]
  | t :: ts, own => by
    rw [ownAll, pairwise_append] at own
    rw [settleAll, ownAll_append, ownAll, filter_append, filter_append,
      Term.filter_own_settle keys made t own.1, filter_ownAll_settle keys made ts own.2.1]

end

end Turns

/-! ## What goes before a statement -/

/-- The definition and the guard of a node, if the ledger expands it. -/
def Ledger.insertedAt (l : Ledger) (node : Info × List Term) : List Statement :=
  match l node.1.id with
  | none => []
  | some e => e.inserted (settleAll l node.2).1

mutual

/-- What goes before a statement are the definitions and guards of its expanded
checks, in the order of the checks. -/
theorem Term.settle_before (l : Ledger) : ∀ t : Term, (t.settle l).2 = t.nodes.flatMap l.insertedAt
  | .expr listed kind info parts => by
    rw [Term.nodes, flatMap_append, ← settleAll_before l parts, flatMap_singleton]
    rcases hid : l info.id with _ | e
    · simp [Term.settle, hid, Ledger.insertedAt]
    · simp [Term.settle, hid, Ledger.insertedAt]
  | .group kind info parts => by rw [Term.nodes, ← settleAll_before l parts, Term.settle]
  | .fixed .. | .block .. => by simp [Term.nodes, Term.settle]

theorem settleAll_before (l : Ledger) : ∀ ts : List Term, (settleAll l ts).2 = (nodesAll ts).flatMap l.insertedAt
  | [] => by simp [nodesAll, settleAll]
  | t :: ts => by
    rw [nodesAll, flatMap_append, ← Term.settle_before l t, ← settleAll_before l ts, settleAll]

end

end CheckHandle
