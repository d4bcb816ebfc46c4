import CheckHandle.Proofs.Settle

/-!
# What a pass does to a file

A pass settles the terms that it walks, with the expansions that it makes. In
each statement it expands the pending checks from the first on and stops at the
first one without a type; what it makes has identities of its own.
-/

namespace CheckHandle

open Std List

variable {l : Ledger} {i : NodeId} {listed : Bool} {b : CheckBinding} {e : Expanded} {slot : Slot}
variable {ids : List NodeId} {whole stop removed : Bool} {ss : List Statement} {operand : Expr}

  {values : List String} {errVar : String}

/-- A check of the file `file` is pending at the node `i`. -/
def Expanding.Pends (s : Expanding) (file : Nat) (i : NodeId) : Prop := ∃ b, s.shared.collected.Pending file i b

/-- `e` was made for the check `b` with identities from `n` up to `n'`. -/
def Expanded.Stems (e : Expanded) (info : TypeInfo) (c : Collected) (b : CheckBinding) (n n' : NodeId) : Prop :=
  ∃ slot values errVar m m', n ≤ m ∧ m' ≤ n' ∧ e.Made info c b slot values errVar m m' ∧
    AreTemporary (values ++ [errVar])

variable {info : TypeInfo} {c : Collected}
  {values : List String} {errVar : String} {n n' j : NodeId} {checks : TreeMap NodeId CheckBinding}
  {scopes : TreeMap NodeId NamingScope}

/-- Only the handlers and the functions matter for what is made. -/
theorem Expanded.Made.of_kept (h : e.Made info { c with checks, scopes } b slot values errVar n n') :
    e.Made info c b slot values errVar n n' :=
  ⟨h.fresh, h.prelude, h.uses, h.single, h.named, h.placed⟩

theorem Expanded.Made.le_of_count (h : e.Made info c b slot values errVar n n') (hj : 0 < e.count j) : n ≤ j := by
  refine Nat.not_lt.mp fun hlt => ?_
  have fresh := h.fresh j
  rw [spare_eq_zero hlt] at fresh
  omega

theorem Expanded.Stems.of_kept (h : e.Stems info { c with checks, scopes } b n n') : e.Stems info c b n n' := by
  obtain ⟨slot, values, errVar, m, m', hm, hm', made, temporary⟩ := h
  exact ⟨slot, values, errVar, m, m', hm, hm', made.of_kept, temporary⟩

/-- One expansion. -/
def Ledger.single (i : NodeId) (e : Expanded) : Ledger := fun j => if j = i then some e else none

theorem Ledger.or_single_of_ne (h : j ≠ i) : l.or (Ledger.single i e) j = l j := by
  simp [Ledger.or, Ledger.single, h]

/-- What an expansion puts before a statement is made for it, apart from the
operand. -/
theorem Expanded.countIn_inserted_le (e : Expanded) (listed : Bool) (parts : List Term)
    (i : NodeId) : countIn i (e.inserted parts) + countAll i (e.inPlace listed)
      ≤ e.count i + countAll i parts := by
  unfold Expanded.inserted
  split
  · have := e.guard.count_parts i
    simp only [Expanded.definition, Expanded.inPlace, Stmt.statement, countIn, countAll,
      Term.count, countAll_exprs, countInfo?, Expanded.count]
    omega
  · simp only [Expanded.inPlace, countIn, countAll_exprs, Expanded.count]
    omega

/-- What a walk puts in the place of a check is what is used of its results. -/
theorem Expanded.inPlace_visited (e : Expanded) (x : Expr) (fits : slot.Fits listed)
    (huses : e.uses = none ↔ slot = .statement) (hsingle : slot = .single → ∃ u, e.uses = some [u]) :
    exprTerms listed ((e.action.visited x).inPlace listed) = e.inPlace listed ∧ e.uses.isNone = false := by
  obtain ⟨names, define, guard, uses⟩ := e
  cases slot with
  | statement => exact absurd fits id
  | single =>
    obtain ⟨u, rfl⟩ := hsingle rfl
    cases fits
    exact ⟨rfl, rfl⟩
  | list owner kind =>
    cases fits
    rcases uses with _ | (_ | ⟨u, _ | ⟨v, us⟩⟩)
    · exact absurd (huses.mp rfl) nofun
    · exact ⟨rfl, rfl⟩
    · exact ⟨rfl, rfl⟩
    · exact ⟨rfl, rfl⟩

/-- Nothing that stays pending comes before something that is expanded. -/
def InTurn (s : Expanding) (file : Nat) (l : Ledger) (ids : List NodeId) : Prop :=
  ids.Pairwise fun i j => s.Pends file i → l i = none → l j = none

/-- A part of a pass from `s` to `s'` that makes the expansions `l`. The part
has the nodes `occurs` and the blocks `blocks`. -/
structure Swept (info : TypeInfo) (file : Nat) (occurs : NodeId → Nat)
    (blocks : List (Info × List Statement)) (s s' : Expanding) (l : Ledger) : Prop where
  /-- What is expanded was pending, and stood in this part. -/
  keys : ∀ {i e}, l i = some e → s.Pends file i ∧ 0 < occurs i
  /-- What is expanded is no longer pending. -/
  checks : ∀ i, s'.shared.collected.checks.get? i = if (l i).isSome then none else s.shared.collected.checks.get? i
  kept : ∃ checks scopes, s'.shared.collected = { s.shared.collected with checks, scopes }
  counter : s.shared.nextId ≤ s'.shared.nextId
  made : ∀ {i e b}, l i = some e → s.shared.collected.Pending file i b →
    e.Stems info s.shared.collected b s.shared.nextId s'.shared.nextId
  inner : ∀ b ∈ blocks, ∀ t ∈ b.2, InTurn s file l t.own

namespace Swept

variable {file : Nat} {occurs occurs1 occurs2 : NodeId → Nat}
  {blocks blocks1 blocks2 : List (Info × List Statement)} {s s1 s2 s' : Expanding}
  {l1 l2 : Ledger}

theorem refl (s : Expanding) (occurs : NodeId → Nat) (blocks : List (Info × List Statement)) :
    Swept info file occurs blocks s s fun _ => none where
  keys h := nomatch h
  checks _ := rfl
  kept := ⟨_, _, rfl⟩
  counter := .refl
  made h := nomatch h
  inner _ _ _ _ := pairwise_of_forall fun _ _ _ _ => rfl

theorem pends (h : Swept info file occurs blocks s s' l) : s'.Pends file i ↔ s.Pends file i ∧ l i = none := by
  unfold Expanding.Pends Collected.Pending
  rw [h.checks]
  rcases l i with _ | e
  · simp
  · simp

theorem mono (h : Swept info file occurs1 blocks s s' l) (le : ∀ i, occurs1 i ≤ occurs2 i) :
    Swept info file occurs2 blocks s s' l :=
  { h with keys := fun hl => ⟨(h.keys hl).1, Nat.lt_of_lt_of_le (h.keys hl).2 (le _)⟩ }

theorem of_shared (h : Swept info file occurs blocks s s1 l) (hs : s'.shared = s1.shared) :
    Swept info file occurs blocks s s' l where
  keys := h.keys
  checks := by
    rw [hs]
    exact h.checks
  kept := by
    rw [hs]
    exact h.kept
  counter := by
    rw [hs]
    exact h.counter
  made := by
    rw [hs]
    exact h.made
  inner := h.inner

section Append

variable (h1 : Swept info file occurs1 blocks1 s s1 l1) (h2 : Swept info file occurs2 blocks2 s1 s2 l2)
  (distinct : ∀ i, s.Pends file i → occurs1 i + occurs2 i ≤ 1)

include h1 h2 distinct

/-- The first part has no node that the second expands. -/
theorem or_left (hi : 0 < occurs1 i) : l1.or l2 i = l1 i := by
  rcases hl2 : l2 i with _ | e
  · simp [Ledger.or, hl2]
  · obtain ⟨pends, occurs⟩ := h2.keys hl2
    have := distinct i (h1.pends.mp pends).1
    omega

omit h2 in
theorem or_right (hi : 0 < occurs2 i) : l1.or l2 i = l2 i := by
  rcases hl1 : l1 i with _ | e
  · simp [Ledger.or, hl1]
  · obtain ⟨pends, occurs⟩ := h1.keys hl1
    have := distinct i pends
    omega

theorem inTurn_left (h : InTurn s file l1 ids) (hids : ∀ i ∈ ids, 0 < occurs1 i) :
    InTurn s file (l1.or l2) ids := by
  refine h.imp_of_mem fun {i j} hi hj h => ?_
  rw [or_left h1 h2 distinct (hids i hi), or_left h1 h2 distinct (hids j hj)]
  exact h

omit h2 in
theorem inTurn_right (h : InTurn s1 file l2 ids) (hids : ∀ i ∈ ids, 0 < occurs2 i) : InTurn s file (l1.or l2) ids := by
  refine h.imp_of_mem fun {i j} hi hj h pends => ?_
  rw [or_right h1 distinct (hids i hi), or_right h1 distinct (hids j hj)]
  refine h (h1.pends.mpr ⟨pends, ?_⟩)
  rcases hl1 : l1 i with _ | e
  · rfl
  · have := distinct i pends
    have := (h1.keys hl1).2
    have := hids i hi
    omega

theorem append (nodes1 : ∀ b ∈ blocks1, ∀ t ∈ b.2, ∀ i ∈ t.own, 0 < occurs1 i)
    (nodes2 : ∀ b ∈ blocks2, ∀ t ∈ b.2, ∀ i ∈ t.own, 0 < occurs2 i) :
    Swept info file (fun i => occurs1 i + occurs2 i) (blocks1 ++ blocks2) s s2 (l1.or l2) where
  keys {i e} hl := by
    rcases hl1 : l1 i with _ | e1
    · rw [Ledger.or, hl1, Option.none_or] at hl
      obtain ⟨pends, occurs⟩ := h2.keys hl
      exact ⟨(h1.pends.mp pends).1, Nat.add_pos_right _ occurs⟩
    · obtain ⟨pends, occurs⟩ := h1.keys hl1
      exact ⟨pends, Nat.add_pos_left occurs _⟩
  checks i := by
    rw [h2.checks, h1.checks, Ledger.or]
    rcases l1 i with _ | e1 <;> rcases l2 i with _ | e2 <;> rfl
  kept := by
    obtain ⟨checks1, scopes1, hs1⟩ := h1.kept
    obtain ⟨checks2, scopes2, hs2⟩ := h2.kept
    exact ⟨checks2, scopes2, by rw [hs2, hs1]⟩
  counter := h1.counter.trans h2.counter
  made {i e b} hl pending := by
    rcases hl1 : l1 i with _ | e1
    · rw [Ledger.or, hl1, Option.none_or] at hl
      have pending' : s1.shared.collected.Pending file i b := by
        refine ⟨?_, pending.2⟩
        rw [h1.checks, hl1]
        exact pending.1
      obtain ⟨slot, values, errVar, m, m', hm, hm', made, temporary⟩ := h2.made hl pending'
      obtain ⟨checks, scopes, hs1⟩ := h1.kept
      rw [hs1] at made
      exact ⟨slot, values, errVar, m, m', h1.counter.trans hm, hm', made.of_kept, temporary⟩
    · rw [Ledger.or, hl1, Option.some_or] at hl
      cases hl
      obtain ⟨slot, values, errVar, m, m', hm, hm', made, temporary⟩ := h1.made hl1 pending
      exact ⟨slot, values, errVar, m, m', hm, hm'.trans h2.counter, made, temporary⟩
  inner b hb t ht := by
    rcases mem_append.mp hb with hb | hb
    · exact inTurn_left h1 h2 distinct (h1.inner b hb t ht) (nodes1 b hb t ht)
    · exact inTurn_right h1 distinct (h2.inner b hb t ht) (nodes2 b hb t ht)

end Append

/-- One more check is expanded, at a node that the part does not have. -/
theorem insert {node : Info} (h : Swept info file occurs blocks s s1 l) (absent : occurs node.id = 0)
    (nodes : ∀ b ∈ blocks, ∀ t ∈ b.2, ∀ i ∈ t.own, 0 < occurs i)
    (pending : s1.shared.collected.Pending file node.id b)
    (made : e.Made info s'.shared.collected b slot values errVar s1.shared.nextId s'.shared.nextId)
    (temporary : AreTemporary (values ++ [errVar]))
    (collected : ∃ scopes, s'.shared.collected = { s1.shared.collected with checks := s1.shared.collected.checks.erase node.id, scopes }) :
    Swept info file (fun i => node.count i + occurs i) blocks s s' (l.or (Ledger.single node.id e)) := by
  have self : l node.id = none := (h.pends.mp ⟨b, pending⟩).2
  obtain ⟨scopes, hcollected⟩ := collected
  obtain ⟨checks, scopes', hs1⟩ := h.kept
  have hcounter : s1.shared.nextId ≤ s'.shared.nextId :=
    le_of_spare (Nat.le_trans (Nat.le_add_left _ _) (made.fresh s'.shared.nextId))
  -- either the new check, or one from before
  have cases_of : ∀ {i e'}, l.or (Ledger.single node.id e) i = some e' → i = node.id ∧ e' = e ∨ l i = some e' := by
    intro i e' hl
    by_cases hi : i = node.id
    · subst hi
      rw [Ledger.or, self, Option.none_or, Ledger.single, if_pos rfl] at hl
      exact .inl ⟨rfl, (Option.some.inj hl).symm⟩
    · rw [Ledger.or_single_of_ne hi] at hl
      exact .inr hl
  exact {
    keys := fun {i e'} hl => by
      rcases cases_of hl with ⟨rfl, -⟩ | hl
      · exact ⟨(h.pends.mp ⟨b, pending⟩).1, Nat.add_pos_left node.count_self_pos _⟩
      · obtain ⟨pends, occurs⟩ := h.keys hl
        exact ⟨pends, Nat.add_pos_right _ occurs⟩
    checks := fun i => by
      rw [hcollected]
      show (s1.shared.collected.checks.erase node.id).get? i = _
      rw [TreeMap.get?_eq_getElem?, TreeMap.getElem?_erase, ← TreeMap.get?_eq_getElem?, h.checks]
      by_cases hi : i = node.id
      · subst hi
        simp [Ledger.or, self, Ledger.single]
      · rw [Ledger.or_single_of_ne hi, if_neg (by simpa using fun h => hi h.symm)]
    kept := ⟨_, scopes, by rw [hcollected, hs1]⟩
    counter := h.counter.trans hcounter
    made := fun {i e' b'} hl pending' => by
      rcases cases_of hl with ⟨rfl, rfl⟩ | hl
      · obtain rfl : b' = b := by
          have := pending.1
          rw [h.checks, self] at this
          exact Option.some.inj (pending'.1.symm.trans this)
        rw [hcollected, hs1] at made
        exact ⟨slot, values, errVar, _, _, h.counter, .refl, made.of_kept.of_kept, temporary⟩
      · obtain ⟨slot, values, errVar, m, m', hm, hm', made', temporary⟩ := h.made hl pending'
        exact ⟨slot, values, errVar, m, m', hm, hm'.trans hcounter, made', temporary⟩
    inner := fun b hb t ht => by
      have apart : ∀ i ∈ t.own, i ≠ node.id := by
        rintro i hi rfl
        have := nodes b hb t ht _ hi
        omega
      refine (h.inner b hb t ht).imp_of_mem fun {i j} hi hj h => ?_
      rw [Ledger.or_single_of_ne (apart i hi), Ledger.or_single_of_ne (apart j hj)]
      exact h }

end Swept

/-! ## Expansions in their places -/

/-- How an expansion fits a check with these settled parts, which is all of its
statement or not, and stands in a list or not: the check is a call with one
argument, and what takes its place are the names of its values in their order.
There is one, unless there is room for several; a check that is all of its
statement leaves none. -/
structure Expanded.Fits (e : Expanded) (whole listed : Bool) (kind : Kind) (parts : List Term) : Prop where
  call : ∃ ellipsis, kind = .call ellipsis
  operand : ∃ fn operand, parts = [.expr false (.ident checkFunc) fn [], .group .list none [operand]]
  results : ∃ values errVar, e.names.map Expr.ident? = (values ++ [errVar]).map some ∧ (whole = true → e.uses = none) ∧
    (whole = false → ∃ uses, e.uses = some uses ∧ uses.map Expr.ident?
        = (if 2 ≤ values.length then values else [values.headD errVar]).map some ∧
      (listed = false → values.length ≤ 1))

mutual

/-- The expansions of a ledger fit the checks in a term. -/
def Term.Fits (l : Ledger) (whole : Bool) : Term → Prop
  | .expr listed kind info parts => FitAll l false parts ∧
    ∀ e, l info.id = some e → e.Fits whole listed kind (settleAll l parts).1
  | .group _ _ parts => FitAll l false parts
  | .fixed .. => True
  | .block _ ss => FitIn l ss

def FitAll (l : Ledger) (whole : Bool) : List Term → Prop
  | [] => True
  | t :: ts => t.Fits l whole ∧ FitAll l whole ts

def FitIn (l : Ledger) : List Statement → Prop
  | [] => True
  | .mk kind _ parts :: ss => FitAll l (decide (kind = .exprStmt)) parts ∧ FitIn l ss

end

theorem fitAll_append {ts us : List Term} :
    FitAll l whole (ts ++ us) ↔ FitAll l whole ts ∧ FitAll l whole us := by
  induction ts with
  | nil => simp [FitAll]
  | cons t ts ih => simp [FitAll, ih, and_assoc]

theorem fitIn_append {ts : List Statement} :
    FitIn l (ss ++ ts) ↔ FitIn l ss ∧ FitIn l ts := by
  induction ss with
  | nil => simp [FitIn]
  | cons s ss ih =>
    obtain ⟨kind, info, parts⟩ := s
    simp [FitIn, ih, and_assoc]

section Agreement

variable {l' : Ledger}

mutual

/-- Whether expansions fit a term depends on those of its nodes only. -/
theorem Term.fits_congr {whole : Bool} : ∀ {t : Term}, (∀ i, 0 < t.count i → l i = l' i) →
    t.Fits l whole → t.Fits l' whole
  | .expr listed kind info parts, h, fits => by
    have hparts : ∀ i, 0 < countAll i parts → l i = l' i := fun i hi =>
      h i (Nat.add_pos_right _ hi)
    rw [Term.Fits] at fits ⊢
    refine ⟨fitAll_congr hparts fits.1, fun e he => ?_⟩
    rw [← settleAll_congr hparts]
    exact fits.2 e ((h info.id (Nat.add_pos_left info.count_self_pos _)).trans he)
  | .group kind info parts, h, fits => by
    rw [Term.Fits] at fits ⊢
    exact fitAll_congr (fun i hi => h i (Nat.add_pos_right _ hi)) fits
  | .fixed .., _, _ => by
    rw [Term.Fits]
    trivial
  | .block info ss, h, fits => by
    rw [Term.Fits] at fits ⊢
    exact fitIn_congr (fun i hi => h i (Nat.add_pos_right _ hi)) fits

theorem fitAll_congr {whole : Bool} : ∀ {ts : List Term},
    (∀ i, 0 < countAll i ts → l i = l' i) → FitAll l whole ts → FitAll l' whole ts
  | [], _, _ => by
    rw [FitAll]
    trivial
  | t :: ts, h, fits => by
    rw [FitAll] at fits ⊢
    exact ⟨Term.fits_congr (fun i hi => h i (Nat.add_pos_left hi _)) fits.1,
      fitAll_congr (fun i hi => h i (Nat.add_pos_right _ hi)) fits.2⟩

theorem fitIn_congr : ∀ {ss : List Statement},
    (∀ i, 0 < countIn i ss → l i = l' i) → FitIn l ss → FitIn l' ss
  | [], _, _ => by
    rw [FitIn]
    trivial
  | .mk kind info parts :: ss, h, fits => by
    rw [FitIn] at fits ⊢
    exact ⟨fitAll_congr (fun i hi => h i (Nat.add_pos_left (Nat.add_pos_right _ hi) _)) fits.1,
      fitIn_congr (fun i hi => h i (Nat.add_pos_right _ hi)) fits.2⟩

end

end Agreement

/-- A term that is no expanded check fits wherever it stands. -/
theorem Term.Fits.of_kept {kind : Kind} {info : Info} {parts : List Term} (h : FitAll l false parts)
    (kept : l info.id = none) : (Term.expr listed kind info parts).Fits l whole := by
  rw [Term.Fits]
  refine ⟨h, fun e he => ?_⟩
  rw [kept] at he
  cases he

/-- What is made for a check fits the slot of the check. -/
theorem Expanded.Made.fits {info : TypeInfo} {c : Collected} {n n' : NodeId} {x : Expr}
    (h : e.Made info c b slot values errVar n n') (args : x.argsOf? checkFunc = some [operand])
    (place : slot = .statement ∨ slot.Fits listed) : e.Fits e.uses.isNone listed x.kind x.parts where
  call := by
    unfold Expr.argsOf? at args
    split at args
    · exact ⟨_, rfl⟩
    · cases args
  operand := by
    obtain ⟨fn, hparts⟩ := Expr.parts_of_argsOf? args
    exact ⟨fn, _, hparts⟩
  results := by
    obtain ⟨n1, hprelude⟩ := h.prelude
    refine ⟨values, errVar, (checkPrelude_guard (hprelude operand)).1, Option.isNone_iff_eq_none.mp, fun hsome => ?_⟩
    have hne : e.uses ≠ none := fun hnone => by
      rw [hnone] at hsome
      cases hsome
    obtain ⟨us, hus⟩ := Option.ne_none_iff_exists'.mp hne
    have placed := h.placed
    rw [hus] at placed
    cases slot with
    | statement => cases placed
    | single =>
      refine ⟨us, hus, Option.some.inj placed, fun _ => ?_⟩
      obtain ⟨u, hu⟩ := h.single rfl
      cases hus.symm.trans hu
      have hlength := congrArg length (Option.some.inj placed)
      rw [length_map, length_map] at hlength
      split at hlength
      · rw [← hlength]
        exact .refl
      · omega
    | list owner kind =>
      refine ⟨us, hus, Option.some.inj placed, fun hlisted => ?_⟩
      rcases place with place | place
      · cases place
      · cases place.symm.trans hlisted

/-! ## Parts of a walk -/

/-- A pass over parts `ts` of a statement, which become `ts'`. -/
structure SweptTerms (info : TypeInfo) (file : Nat) (s : Expanding) (ts ts' : List Term)
    (removed : Bool) (s' : Expanding) (l : Ledger) : Prop
    extends Swept info file (countAll · ts) (blocksAll ts) s s' l where
  settled : (settleAll l ts).1 = ts'
  fits : FitAll l removed ts
  /-- Definitions and guards are put before the statement at hand. -/
  frames : ∃ before stop, statements before = (settleAll l ts).2 ∧ s'.frames = s.frames.modifyHead fun frame =>
      ⟨frame.before ++ before, frame.interrupted || stop, frame.removed || removed⟩
  inTurn : s.frames ≠ [] → InTurn s file l (ownAll ts)
  /-- After a check without a type nothing is expanded. -/
  blocked : s.isInterrupted = true → ∀ i ∈ ownAll ts, l i = none
  /-- Without such a check everything is. -/
  finished : s.frames ≠ [] → s'.isInterrupted = false → ∀ i ∈ ownAll ts, s.Pends file i → l i ≠ none
  fresh : ∀ i, countAll i ts' + countIn i (settleAll l ts).2
    + spare s'.shared.nextId i ≤ countAll i ts + spare s.shared.nextId i
  /-- No block is lost. -/
  carried : ∀ b ∈ blocksAll ts, (b.1, settleIn l b.2)
    ∈ blocksAll ts' ++ blocksIn (settleAll l ts).2

/-- A pass over the statements `ss` of a block, which become `ss'`. -/
structure SweptIn (info : TypeInfo) (file : Nat) (s : Expanding) (ss ss' : List Statement)
    (s' : Expanding) (l : Ledger) : Prop
    extends Swept info file (countIn · ss) (blocksIn ss) s s' l where
  settled : settleIn l ss = ss'
  fits : FitIn l ss
  frames : s'.frames = s.frames
  inTurn : ∀ t ∈ ss, InTurn s file l t.own
  fresh : ∀ i, countIn i ss' + spare s'.shared.nextId i ≤ countIn i ss + spare s.shared.nextId i
  carried : ∀ b ∈ blocksIn ss, (b.1, settleIn l b.2) ∈ blocksIn ss'

theorem Expanding.isInterrupted_modifyHead {s s' : Expanding} {before : List Stmt}
    (h : s'.frames = s.frames.modifyHead fun frame =>
      ⟨frame.before ++ before, frame.interrupted || stop, frame.removed || removed⟩)
    (hs : s.frames ≠ []) : s'.isInterrupted = (s.isInterrupted || stop) := by
  unfold Expanding.isInterrupted
  rw [h]
  rcases hframes : s.frames with _ | ⟨frame, frames⟩
  · exact absurd hframes hs
  · rfl

namespace SweptTerms

variable {file : Nat} {s s1 s2 s' : Expanding} {ts ts' us us' : List Term}
  {l1 l2 : Ledger}

theorem frames_ne_nil (h : SweptTerms info file s ts ts' removed s' l) (hs : s.frames ≠ []) : s'.frames ≠ [] := by
  obtain ⟨before, stop, -, hframes⟩ := h.frames
  rw [hframes]
  rcases hnil : s.frames with _ | ⟨frame, frames⟩
  · exact absurd hnil hs
  · exact nofun

theorem interrupted (h : SweptTerms info file s ts ts' removed s' l) (hs : s.isInterrupted = true) :
    s'.isInterrupted = true := by
  have hne : s.frames ≠ [] := by
    intro hnil
    rw [Expanding.isInterrupted, hnil] at hs
    cases hs
  obtain ⟨before, stop, -, hframes⟩ := h.frames
  rw [Expanding.isInterrupted_modifyHead hframes hne, hs]
  rfl

theorem refl (s : Expanding) (hown : ownAll ts = []) (hblocks : blocksAll ts = [])
    (hsettle : settleAll (fun _ => none) ts = (ts, []))
    (hfits : FitAll (fun _ => none) false ts) :
    SweptTerms info file s ts ts false s fun _ => none where
  toSwept := .refl s _ _
  settled := by rw [hsettle]
  fits := hfits
  frames := by
    refine ⟨[], false, by rw [hsettle]; rfl, ?_⟩
    rcases s.frames with _ | ⟨frame, frames⟩
    · rfl
    · simp
  inTurn _ := by
    rw [hown]
    exact List.Pairwise.nil
  blocked _ _ _ := rfl
  finished _ _ i hi := by
    rw [hown] at hi
    cases hi
  fresh i := by
    rw [hsettle]
    simp [countIn]
  carried b hb := by
    rw [hblocks] at hb
    cases hb

theorem append (h1 : SweptTerms info file s ts ts' false s1 l1) (h2 : SweptTerms info file s1 us us' false s2 l2)
    (distinct : ∀ i, s.Pends file i → countAll i ts + countAll i us ≤ 1) :
    SweptTerms info file s (ts ++ us) (ts' ++ us') false s2 (l1.or l2) := by
  have left : settleAll (l1.or l2) ts = settleAll l1 ts :=
    settleAll_congr fun i hi => h1.or_left h2.toSwept distinct hi
  have right : settleAll (l1.or l2) us = settleAll l2 us := settleAll_congr fun i hi => h1.or_right distinct hi
  have settle : settleAll (l1.or l2) (ts ++ us) = ((settleAll l1 ts).1 ++ (settleAll l2 us).1,
      (settleAll l1 ts).2 ++ (settleAll l2 us).2) := by
    rw [settleAll_append, left, right]
  exact {
    toSwept := by
      have h := h1.toSwept.append h2.toSwept distinct (fun b hb t ht i => countAll_pos_of_blocks hb ht)
        (fun b hb t ht i => countAll_pos_of_blocks hb ht)
      simpa only [countAll_append, blocksAll_append] using h
    settled := by rw [settle, h1.settled, h2.settled]
    fits := fitAll_append.mpr ⟨fitAll_congr (fun i hi => (h1.or_left h2.toSwept distinct hi).symm) h1.fits,
        fitAll_congr (fun i hi => (h1.or_right distinct hi).symm) h2.fits⟩
    frames := by
      obtain ⟨before1, stop1, hbefore1, hframes1⟩ := h1.frames
      obtain ⟨before2, stop2, hbefore2, hframes2⟩ := h2.frames
      refine ⟨before1 ++ before2, stop1 || stop2, ?_, ?_⟩
      · rw [settle, statements_append, hbefore1, hbefore2]
      · rw [hframes2, hframes1, modifyHead_modifyHead]
        simp [Function.comp_def, Bool.or_assoc]
    inTurn := fun hs => by
      rw [ownAll_append]
      refine pairwise_append.mpr ⟨h1.inTurn_left h2.toSwept distinct (h1.inTurn hs)
        fun i => countAll_pos_of_own, h1.inTurn_right distinct (h2.inTurn (h1.frames_ne_nil hs))
        fun i => countAll_pos_of_own, fun i hi j hj pends hl => ?_⟩
      -- what is left in the first part stops the second
      rw [h1.or_left h2.toSwept distinct (countAll_pos_of_own hi)] at hl
      rw [h1.or_right distinct (countAll_pos_of_own hj)]
      rcases hstop : s1.isInterrupted with _ | _
      · exact absurd hl (h1.finished hs hstop i hi pends)
      · exact h2.blocked hstop j hj
    blocked := fun hs i hi => by
      rw [ownAll_append] at hi
      rcases mem_append.mp hi with hi | hi
      · rw [h1.or_left h2.toSwept distinct (countAll_pos_of_own hi)]
        exact h1.blocked hs i hi
      · rw [h1.or_right distinct (countAll_pos_of_own hi)]
        exact h2.blocked (h1.interrupted hs) i hi
    finished := fun hs hs2 i hi pends => by
      have hs1 : s1.isInterrupted = false := by
        rcases hstop : s1.isInterrupted with _ | _
        · rfl
        · rw [h2.interrupted hstop] at hs2
          cases hs2
      rw [ownAll_append] at hi
      rcases mem_append.mp hi with hi | hi
      · rw [h1.or_left h2.toSwept distinct (countAll_pos_of_own hi)]
        exact h1.finished hs hs1 i hi pends
      · have hl1 : l1 i = none := by
          rw [← Option.not_isSome_iff_eq_none, Option.isSome_iff_exists]
          rintro ⟨e, hl1⟩
          have := distinct i pends
          have := (h1.keys hl1).2
          have := countAll_pos_of_own hi
          omega
        rw [h1.or_right distinct (countAll_pos_of_own hi)]
        exact h2.finished (h1.frames_ne_nil hs) hs2 i hi (h1.pends.mpr ⟨pends, hl1⟩)
    fresh := fun i => by
      have fresh1 := h1.fresh i
      have fresh2 := h2.fresh i
      rw [settle, countAll_append, countAll_append, countIn_append]
      omega
    carried := fun b hb => by
      rw [blocksAll_append] at hb
      rw [settle, blocksAll_append, blocksIn_append]
      rcases mem_append.mp hb with hb | hb
      · have agree : settleIn (l1.or l2) b.2 = settleIn l1 b.2 :=
          settleIn_congr fun i hi => h1.or_left h2.toSwept distinct
            (hi.trans_le (countIn_le_countAll hb))
        rw [agree]
        rcases mem_append.mp (h1.carried b hb) with h | h <;> simp [h]
      · have agree : settleIn (l1.or l2) b.2 = settleIn l2 b.2 :=
          settleIn_congr fun i hi => h1.or_right distinct
            (hi.trans_le (countIn_le_countAll hb))
        rw [agree]
        rcases mem_append.mp (h2.carried b hb) with h | h <;> simp [h] }

theorem group (h : SweptTerms info file s ts ts' false s' l) (kind : Kind) (i? : Option Info) :
    SweptTerms info file s [.group kind i? ts] [.group kind i? ts'] false s' l := by
  have hown : ownAll [.group kind i? ts] = ownAll ts := by simp [ownAll, Term.own]
  have hblocks : ∀ ts, blocksAll [.group kind i? ts] = blocksAll ts := by
    simp [blocksAll, Term.blocks]
  have hcount : ∀ i ts, countAll i [.group kind i? ts] = countInfo? i i? + countAll i ts := by
    simp [countAll, Term.count]
  have hsettle : settleAll l [.group kind i? ts] = ([.group kind i? (settleAll l ts).1], (settleAll l ts).2) := by
    simp [settleAll, Term.settle]
  exact {
    toSwept := by
      rw [hblocks]
      refine h.toSwept.mono fun i => ?_
      rw [hcount]
      exact Nat.le_add_left _ _
    settled := by rw [hsettle, h.settled]
    fits := by simpa [FitAll, Term.Fits] using h.fits
    frames := by
      rw [hsettle]
      exact h.frames
    inTurn := by
      rw [hown]
      exact h.inTurn
    blocked := by
      rw [hown]
      exact h.blocked
    finished := by
      rw [hown]
      exact h.finished
    fresh := fun i => by
      have := h.fresh i
      simp only [hsettle, hcount]
      omega
    carried := by
      rw [hsettle, hblocks, hblocks]
      exact h.carried }

theorem block {ss' : List Statement} (h : SweptIn info file s ss ss' s' l) (blockInfo : Info) :
    SweptTerms info file s [.block blockInfo ss] [.block blockInfo ss'] false s' l := by
  have hown : ownAll [.block blockInfo ss] = [] := by simp [ownAll, Term.own]
  have hblocks : ∀ ss, blocksAll [.block blockInfo ss] = (blockInfo, ss) :: blocksIn ss := by
    simp [blocksAll, Term.blocks]
  have hcount : ∀ i ss, countAll i [.block blockInfo ss] = blockInfo.count i + countIn i ss := by
    simp [countAll, Term.count]
  have hsettle : settleAll l [.block blockInfo ss] = ([.block blockInfo (settleIn l ss)], []) := by
    simp [settleAll, Term.settle]
  exact {
    toSwept := by
      have swept : Swept info file (countAll · [.block blockInfo ss]) (blocksIn ss) s s' l :=
        h.toSwept.mono fun i => by
          rw [hcount]
          exact Nat.le_add_left _ _
      refine { swept with inner := ?_ }
      rw [hblocks, forall_mem_cons]
      exact ⟨h.inTurn, h.inner⟩
    settled := by rw [hsettle, h.settled]
    fits := by simpa [FitAll, Term.Fits] using h.fits
    frames := by
      refine ⟨[], false, by rw [hsettle]; rfl, ?_⟩
      rw [h.frames]
      rcases s.frames with _ | ⟨frame, frames⟩
      · rfl
      · simp
    inTurn := fun _ => by
      rw [hown]
      exact List.Pairwise.nil
    blocked := fun _ i hi => by
      rw [hown] at hi
      cases hi
    finished := fun _ _ i hi => by
      rw [hown] at hi
      cases hi
    fresh := fun i => by
      have := h.fresh i
      rw [hsettle, hcount, hcount]
      simp only [countIn]
      omega
    carried := by
      rw [hblocks, hblocks, forall_mem_cons, hsettle]
      refine ⟨?_, fun b hb => ?_⟩
      · rw [h.settled]
        simp
      · have := h.carried b hb
        simp [this] }

section Report

variable {x x' : Expr}

/-- The check at a node, if it is pending, has not been expanded with the parts
of the node. -/
theorem self_not_expanded (h : SweptTerms info file s x.parts ts' removed s1 l)
    (distinct : ∀ i, s.Pends file i → (x.term listed).count i ≤ 1) : l x.info.id = none := by
  rcases hl : l x.info.id with _ | e
  · rfl
  · obtain ⟨pends, occurs⟩ := h.keys hl
    have hdistinct := distinct _ pends
    simp only [Expr.term, Term.count, Info.count_self] at hdistinct
    omega

/-- A check is left where it is, because it waits or because there is none. -/
theorem keep (h : SweptTerms info file s x.parts x'.parts false s1 l) (hkind : x'.kind = x.kind)
    (hinfo : x'.info = x.info) (distinct : ∀ i, s.Pends file i → (x.term listed).count i ≤ 1)
    (hshared : s'.shared = s1.shared)
    (hframes : s'.frames = s1.frames.modifyHead fun frame =>
      { frame with interrupted := frame.interrupted || stop })
    (idle : s1.frames ≠ [] → s'.isInterrupted = false → ¬ s1.Pends file x.info.id) :
    SweptTerms info file s [x.term listed] [x'.term listed] false s' l := by
  have self := h.self_not_expanded distinct
  have hsettle : settleAll l [x.term listed]
      = ([.expr listed x.kind x.info (settleAll l x.parts).1], (settleAll l x.parts).2) := by
    simp [settleAll, Expr.term, Term.settle, self]
  have hown : ownAll [x.term listed] = ownAll x.parts ++ [x.info.id] := by
    simp [ownAll, Expr.term, Term.own]
  have hblocks : ∀ y : Expr, blocksAll [y.term listed] = blocksAll y.parts := by
    simp [blocksAll, Expr.term, Term.blocks]
  have hcount : ∀ i (y : Expr), countAll i [y.term listed] = y.info.count i + countAll i y.parts := by
    simp [countAll, Expr.term, Term.count]
  have hstop : s1.isInterrupted = true → s'.isInterrupted = true := by
    intro hs1
    have hframes' : s'.frames = s1.frames.modifyHead fun frame =>
        ⟨frame.before ++ [], frame.interrupted || stop, frame.removed || false⟩ := by
      rw [hframes]
      simp
    have hne : s1.frames ≠ [] := by
      intro hnil
      rw [Expanding.isInterrupted, hnil] at hs1
      cases hs1
    rw [Expanding.isInterrupted_modifyHead hframes' hne, hs1]
    rfl
  exact {
    toSwept := by
      rw [hblocks]
      refine (h.toSwept.of_shared hshared).mono fun i => ?_
      rw [hcount]
      exact Nat.le_add_left _ _
    settled := by rw [hsettle, h.settled, Expr.term, hkind, hinfo]
    fits := ⟨.of_kept h.fits self, trivial⟩
    frames := by
      obtain ⟨before, stop', hbefore, hframes'⟩ := h.frames
      refine ⟨before, stop' || stop, by rw [hsettle]; exact hbefore, ?_⟩
      rw [hframes, hframes', modifyHead_modifyHead]
      simp [Function.comp_def, Bool.or_assoc]
    inTurn := fun hs => by
      rw [hown]
      refine pairwise_append.mpr ⟨h.inTurn hs, pairwise_singleton _ _, ?_⟩
      intro i hi j hj _ _
      rw [mem_singleton.mp hj]
      exact self
    blocked := fun hs i hi => by
      rw [hown, mem_append, mem_singleton] at hi
      rcases hi with hi | rfl
      · exact h.blocked hs i hi
      · exact self
    finished := fun hs hs' i hi pends => by
      have hs1 : s1.isInterrupted = false := by
        rcases hstop' : s1.isInterrupted with _ | _
        · rfl
        · rw [hstop hstop'] at hs'
          cases hs'
      rw [hown, mem_append, mem_singleton] at hi
      rcases hi with hi | rfl
      · exact h.finished hs hs1 i hi pends
      · exact absurd (h.pends.mpr ⟨pends, self⟩) (idle (h.frames_ne_nil hs) hs')
    fresh := fun i => by
      have := h.fresh i
      simp only [hsettle, hcount, hinfo, hshared]
      omega
    carried := by
      rw [hsettle, hblocks, hblocks]
      exact h.carried }

/-- A check is expanded. -/
theorem expand (h : SweptTerms info file s x.parts x'.parts false s1 l) (hkind : x'.kind = x.kind)
    (distinct : ∀ i, s.Pends file i → (x.term listed).count i ≤ 1)
    (pending : s1.shared.collected.Pending file x.info.id b) (going : s1.isInterrupted = false)
    (args : x'.argsOf? checkFunc = some [operand])
    (made : e.Made info s'.shared.collected b slot values errVar s1.shared.nextId s'.shared.nextId)
    (temporary : AreTemporary (values ++ [errVar])) (place : slot = .statement ∨ slot.Fits listed)
    (collected : ∃ scopes, s'.shared.collected = { s1.shared.collected with checks := s1.shared.collected.checks.erase x.info.id, scopes })
    (frames : s'.frames = s1.frames.modifyHead (e.updated operand)) :
    SweptTerms info file s [x.term listed] (e.inPlace listed) e.uses.isNone s' (l.or (Ledger.single x.info.id e)) := by
  have self := h.self_not_expanded distinct
  have pends : s.Pends file x.info.id := (h.pends.mp ⟨b, pending⟩).1
  have hself : l.or (Ledger.single x.info.id e) x.info.id = some e := by
    simp [Ledger.or, self, Ledger.single]
  have absent : countAll x.info.id x.parts = 0 := by
    have hdistinct := distinct _ pends
    simp only [Expr.term, Term.count, Info.count_self] at hdistinct
    omega
  have hparts : ∀ i, 0 < countAll i x.parts → l.or (Ledger.single x.info.id e) i = l i := by
    intro i hi
    refine Ledger.or_single_of_ne ?_
    rintro rfl
    omega
  have hsettle : settleAll (l.or (Ledger.single x.info.id e)) [x.term listed]
      = (e.inPlace listed, (settleAll l x.parts).2 ++ e.inserted x'.parts) := by
    rw [settleAll_singleton, Expr.term, Term.settle, hself, settleAll_congr hparts]
    simp only [h.settled]
  have hown : ownAll [x.term listed] = ownAll x.parts ++ [x.info.id] := by
    simp [ownAll, Expr.term, Term.own]
  have hblocks : blocksAll [x.term listed] = blocksAll x.parts := by
    simp [blocksAll, Expr.term, Term.blocks]
  have hcount : ∀ i, countAll i [x.term listed] = x.info.count i + countAll i x.parts := by
    simp [countAll, Expr.term, Term.count]
  obtain ⟨fn, hx'⟩ := Expr.parts_of_argsOf? args
  have hinserted : e.inserted x'.parts = statements (e.prelude operand) := by
    rw [hx']
    simp [Expanded.inserted, Expanded.definition, Expanded.prelude, statements, Stmt.statement,
      Stmt.parts, Stmt.kind, Stmt.info, exprTerms, Expr.term, targetKind]
  have hne : s.frames ≠ [] → ∀ i ∈ ownAll x.parts, s.Pends file i → l i ≠ none := fun hs => h.finished hs going
  exact {
    toSwept := by
      have swept := h.toSwept.insert absent (fun b hb t ht i => countAll_pos_of_blocks hb ht) pending
        made temporary collected
      rw [hblocks]
      exact swept.mono fun i => Nat.le_of_eq (hcount i).symm
    settled := by rw [hsettle]
    fits := by
      refine ⟨?_, trivial⟩
      rw [Expr.term, Term.Fits]
      refine ⟨fitAll_congr (fun i hi => (hparts i hi).symm) h.fits, fun e' he' => ?_⟩
      cases hself.symm.trans he'
      rw [settleAll_congr hparts, h.settled, ← hkind]
      exact made.fits args place
    frames := by
      obtain ⟨before, stop, hbefore, hframes⟩ := h.frames
      refine ⟨before ++ e.prelude operand, stop, ?_, ?_⟩
      · rw [hsettle, statements_append, hbefore, hinserted]
      · rw [frames, hframes, modifyHead_modifyHead]
        simp [Function.comp_def, Expanded.updated]
    inTurn := fun hs => by
      rw [hown]
      refine pairwise_append.mpr ⟨?_, pairwise_singleton _ _, ?_⟩
      · refine (h.inTurn hs).imp_of_mem fun {i j} hi hj h => ?_
        rw [hparts i (countAll_pos_of_own hi), hparts j (countAll_pos_of_own hj)]
        exact h
      · intro i hi j _ pends hl
        rw [hparts i (countAll_pos_of_own hi)] at hl
        exact absurd hl (hne hs i hi pends)
    blocked := fun hs => by
      rw [h.interrupted hs] at going
      cases going
    finished := fun hs _ i hi pends => by
      rw [hown, mem_append, mem_singleton] at hi
      rcases hi with hi | rfl
      · rw [hparts i (countAll_pos_of_own hi)]
        exact hne hs i hi pends
      · rw [hself]
        simp
    fresh := fun i => by
      have fresh := h.fresh i
      have fresh' := made.fresh i
      have le := e.countIn_inserted_le listed x'.parts i
      simp only [hsettle, hcount, countIn_append]
      omega
    carried := fun b hb => by
      rw [hblocks] at hb
      have agree : settleIn (l.or (Ledger.single x.info.id e)) b.2 = settleIn l b.2 :=
        settleIn_congr fun i hi =>
          hparts i (hi.trans_le (countIn_le_countAll hb))
      rw [agree, hsettle, blocksIn_append]
      rcases mem_append.mp (h.carried b hb) with h | h
      · -- the operand moves into the definition
        rw [hx'] at h ⊢
        simp only [blocksAll, Term.blocks, append_nil, nil_append] at h
        simp [Expanded.inserted, Expanded.definition, blocksIn, blocksAll, Term.blocks, h]
      · simp [h] }

/-- What the report of an expression brings about. -/
theorem report {region : Region} {action : ExprAction} (h : SweptTerms info file s x.parts x'.parts false s1 l)
    (hkind : x'.kind = x.kind) (hinfo : x'.info = x.info)
    (distinct : ∀ i, s.Pends file i → (x.term listed).count i ≤ 1) (place : slot = .statement ∨ slot.Fits listed)
    (hexit : (expander info file).exitExpr x' ⟨slot, region⟩ s1 = (.ok action, s')) :
    (action = .keep ∧ SweptTerms info file s [x.term listed] [x'.term listed] false s' l) ∨
    ∃ (e : Expanded) (l' : Ledger), action = e.action ∧ (e.uses = none ↔ slot = .statement) ∧
      (slot = .single → ∃ u, e.uses = some [u]) ∧
      SweptTerms info file s [x.term listed] (e.inPlace listed) e.uses.isNone s' l' := by
  have answers : Answers info file x' slot s1 action s' := answers_of_exitExpr hexit
  cases answers with
  | keep idle =>
    rw [hinfo] at idle
    have hframes : s1.frames = s1.frames.modifyHead fun frame =>
        { frame with interrupted := frame.interrupted || false } := by
      rcases s1.frames with _ | ⟨frame, frames⟩
      · rfl
      · simp
    refine .inl ⟨rfl, h.keep hkind hinfo distinct rfl hframes ?_⟩
    rintro - going ⟨b, pending⟩
    rw [idle b pending] at going
    cases going
  | wait pending going untyped =>
    have hframes : s1.frames.modifyHead ({ · with interrupted := true }) = s1.frames.modifyHead fun frame =>
          { frame with interrupted := frame.interrupted || true } := by
      simp
    refine .inl ⟨rfl, h.keep hkind hinfo distinct rfl hframes ?_⟩
    intro hne hstop
    rcases hs1 : s1.frames with _ | ⟨frame, frames⟩
    · exact absurd hs1 hne
    · rw [Expanding.isInterrupted] at hstop
      simp only [hs1, modifyHead_cons] at hstop
      cases hstop
  | expand pending going typed args made temporary collected frames expanded =>
    rw [hinfo] at pending collected
    exact .inr ⟨_, _, rfl, made.uses, made.single,
      h.expand hkind distinct pending going args made temporary place collected frames⟩

end Report

end SweptTerms

namespace SweptIn

variable {file : Nat} {s s1 s2 s' : Expanding} {ss' ts ts' : List Statement}
  {l1 l2 : Ledger}

theorem refl (s : Expanding) : SweptIn info file s [] [] s fun _ => none where
  toSwept := .refl s _ _
  settled := rfl
  fits := trivial
  frames := rfl
  inTurn _ h := nomatch h
  fresh _ := .refl
  carried _ h := nomatch h

theorem append (h1 : SweptIn info file s ss ss' s1 l1) (h2 : SweptIn info file s1 ts ts' s2 l2)
    (distinct : ∀ i, s.Pends file i → countIn i ss + countIn i ts ≤ 1) :
    SweptIn info file s (ss ++ ts) (ss' ++ ts') s2 (l1.or l2) where
  toSwept := by
    have h := h1.toSwept.append h2.toSwept distinct (fun b hb t ht i => countIn_pos_of_blocks hb ht)
      (fun b hb t ht i => countIn_pos_of_blocks hb ht)
    simpa only [countIn_append, blocksIn_append] using h
  settled := by
    rw [settleIn_append, ← h1.settled, ← h2.settled,
      settleIn_congr fun i hi => h1.or_left h2.toSwept distinct hi,
      settleIn_congr fun i hi => h1.or_right distinct hi]
  fits := fitIn_append.mpr ⟨fitIn_congr (fun i hi => (h1.or_left h2.toSwept distinct hi).symm) h1.fits,
      fitIn_congr (fun i hi => (h1.or_right distinct hi).symm) h2.fits⟩
  frames := by rw [h2.frames, h1.frames]
  inTurn t ht := by
    rcases mem_append.mp ht with ht | ht
    · exact h1.inTurn_left h2.toSwept distinct (h1.inTurn t ht) fun i => countIn_pos_of_own ht
    · exact h1.inTurn_right distinct (h2.inTurn t ht) fun i => countIn_pos_of_own ht
  fresh i := by
    have fresh1 := h1.fresh i
    have fresh2 := h2.fresh i
    rw [countIn_append, countIn_append]
    omega
  carried b hb := by
    rw [blocksIn_append] at hb ⊢
    rcases mem_append.mp hb with hb | hb
    · have agree : settleIn (l1.or l2) b.2 = settleIn l1 b.2 :=
        settleIn_congr fun i hi => h1.or_left h2.toSwept distinct
          (hi.trans_le (countIn_le_countIn hb))
      rw [agree]
      exact mem_append_left _ (h1.carried b hb)
    · have agree : settleIn (l1.or l2) b.2 = settleIn l2 b.2 :=
        settleIn_congr fun i hi => h1.or_right distinct
          (hi.trans_le (countIn_le_countIn hb))
      rw [agree]
      exact mem_append_right _ (h2.carried b hb)

/-- A statement gets a frame of its own, and its definitions and guards go
before it. -/
theorem single {t t' : Stmt} {parts' : List Term} {action : StmtAction}
    (h : SweptTerms info file { s with frames := {} :: s.frames } t.parts parts' removed s1 l)
    (hremoved : removed = true ↔ t.kind = .exprStmt ∧ t.parts ≠ [] ∧ parts' = [])
    (hfits : FitAll l (decide (t.kind = .exprStmt)) t.parts)
    (hkept : removed = false → t'.kind = t.kind ∧ t'.info = t.info ∧ t'.parts = parts')
    (hexit : (expander info file).exitStmt t' s1 = (.ok action, s')) :
    SweptIn info file s [t.statement] (statements (action.result t')) s' l := by
  obtain ⟨before, stop, hbefore, hframes⟩ := h.frames
  have hs1 : s1.frames = ⟨before, stop, removed⟩ :: s.frames := by
    rw [hframes]
    simp
  obtain ⟨rfl, rfl⟩ : action = ⟨before, removed⟩ ∧ s' = { s1 with frames := s.frames } := by
    simp only [expander, visit_bind, visit_get, visit_set] at hexit
    obtain ⟨_, _, ⟨rfl, rfl⟩, _, _, rfl, hexit⟩ := hexit
    simp only [hs1, visit_pure, tail_cons] at hexit
    exact hexit
  have hresult : statements (StmtAction.result ⟨before, removed⟩ t')
      = (settleAll l t.parts).2 ++ remaining t.kind t.info t.parts parts' := by
    rw [StmtAction.result, statements_append, hbefore, remaining]
    cases removed with
    | true =>
      rw [if_pos rfl, if_pos (hremoved.mp rfl)]
      rfl
    | false =>
      obtain ⟨hkind, hinfo, hparts⟩ := hkept rfl
      have hstatement : statements [t'] = [.mk t.kind t.info parts'] := by
        rw [statements, statements, hkind, hinfo, hparts]
      have stays : ¬ (t.kind = .exprStmt ∧ t.parts ≠ [] ∧ parts' = []) := fun gone => by cases hremoved.mpr gone
      rw [if_neg stays]
      exact congrArg _ hstatement
  have hsettle : settleIn l [t.statement]
      = (settleAll l t.parts).2 ++ remaining t.kind t.info t.parts parts' := by
    simp [Stmt.statement, settleIn, h.settled]
  have hcount : ∀ i, countIn i [t.statement] = t.info.count i + countAll i t.parts := by
    simp [Stmt.statement, countIn]
  have hblocks : blocksIn [t.statement] = blocksAll t.parts := by
    simp [Stmt.statement, blocksIn]
  rw [hresult]
  exact {
    toSwept := by
      have swept : Swept info file (countIn · [t.statement]) (blocksAll t.parts) s
          { s1 with frames := s.frames } l := by
        refine Swept.mono (?_ : Swept info file (countAll · t.parts) _ s _ l) fun i => ?_
        · exact ⟨h.keys, h.checks, h.kept, h.counter, h.made, h.inner⟩
        · rw [hcount]
          exact Nat.le_add_left _ _
      rw [hblocks]
      exact swept
    settled := hsettle
    fits := ⟨hfits, trivial⟩
    frames := rfl
    inTurn := fun u hu => by
      rw [mem_singleton.mp hu]
      exact h.inTurn (by simp)
    fresh := fun i => by
      have fresh : countAll i parts' + countIn i (settleAll l t.parts).2
        + spare s1.shared.nextId i ≤ countAll i t.parts + spare s.shared.nextId i := h.fresh i
      have remains := countIn_remaining_le i t.kind t.info t.parts parts'
      rw [countIn_append, hcount]
      show _ + spare s1.shared.nextId i ≤ _
      omega
    carried := fun b hb => by
      rw [hblocks] at hb
      rw [blocksIn_append]
      rcases mem_append.mp (h.carried b hb) with hb | hb
      · have remains : ∀ b ∈ blocksAll parts', b ∈ blocksIn (remaining t.kind t.info t.parts parts') := by
          intro b hb
          unfold remaining
          split
          · rename_i gone
            rw [gone.2.2] at hb
            exact hb
          · simpa [blocksIn] using hb
        exact mem_append_right _ (remains _ hb)
      · exact mem_append_left _ hb }

end SweptIn

/-! ## The whole pass -/

/-- A pass sweeps every part of a file in which no pending check stands twice. -/
theorem follows_expander (info : TypeInfo) (file : Nat) : Follows (expander info file)
      (fun s ts ts' s' => (∀ i, s.Pends file i → countAll i ts ≤ 1) → ∃ l, SweptTerms info file s ts ts' false s' l)
      (fun s ss ss' s' => (∀ i, s.Pends file i → countIn i ss ≤ 1) →
        ∃ l, SweptIn info file s ss ss' s' l) where
  nil _ := ⟨_, .refl _ rfl rfl rfl trivial⟩
  append {ts _ us _ s _ _} ht hu distinct := by
    have distinct' : ∀ i, s.Pends file i → countAll i ts + countAll i us ≤ 1 := by
      intro i pends
      rw [← countAll_append]
      exact distinct i pends
    obtain ⟨l1, h1⟩ := ht fun i pends => Nat.le_trans (Nat.le_add_right _ _) (distinct' i pends)
    obtain ⟨l2, h2⟩ := hu fun i pends =>
      Nat.le_trans (Nat.le_add_left _ _) (distinct' i (h1.pends.mp pends).1)
    exact ⟨_, h1.append h2 distinct'⟩
  fixed _ := ⟨_, .refl _ (by simp [ownAll, Term.own]) (by simp [blocksAll, Term.blocks])
    (by simp [settleAll, Term.settle]) (by simp [FitAll, Term.Fits])⟩
  group {kind i? parts _ _ _} h distinct := by
    obtain ⟨l, h⟩ := h fun i pends => by
      have := distinct i pends
      simp only [countAll, Term.count] at this
      omega
    exact ⟨l, h.group kind i?⟩
  expr {x x' listed slot region action s s1 s'} hkind hinfo fits h hexit distinct := by
    have distinct' : ∀ i, s.Pends file i → (x.term listed).count i ≤ 1 := by
      intro i pends
      have := distinct i pends
      simpa [countAll] using this
    obtain ⟨l, h⟩ := h fun i pends => by
      have := distinct' i pends
      simp only [Expr.term, Term.count] at this
      omega
    rcases h.report hkind hinfo distinct' (.inr fits) hexit with
      ⟨rfl, h⟩ | ⟨e, l', rfl, huses, hsingle, h⟩
    · refine ⟨l, ?_⟩
      cases listed <;> exact h
    · obtain ⟨hplace, hsome⟩ := e.inPlace_visited x' fits huses hsingle
      rw [hsome] at h
      rw [hplace]
      exact ⟨l', h⟩
  func henter h hexit distinct := by
    cases henter
    cases hexit
    exact h distinct
  block {i ss ss' s s1 s2 s3} henter h hexit distinct := by
    cases henter
    cases hexit
    obtain ⟨l, h⟩ := h fun i pends => by
      have := distinct i pends
      simp only [countAll, Term.count] at this
      omega
    exact ⟨l, .block h i⟩
  done _ := ⟨_, .refl _⟩
  andThen {ss _ ts _ s _ _} hs ht distinct := by
    have distinct' : ∀ i, s.Pends file i → countIn i ss + countIn i ts ≤ 1 := by
      intro i pends
      rw [← countIn_append]
      exact distinct i pends
    obtain ⟨l1, h1⟩ := hs fun i pends => Nat.le_trans (Nat.le_add_right _ _) (distinct' i pends)
    obtain ⟨l2, h2⟩ := ht fun i pends =>
      Nat.le_trans (Nat.le_add_left _ _) (distinct' i (h1.pends.mp pends).1)
    exact ⟨_, h1.append h2 distinct'⟩
  removed henter := nomatch henter
  skipped henter := nomatch henter
  stmt {t t' action s s1 s2 s3} hne hkind hinfo henter h hexit distinct := by
    cases henter
    obtain ⟨l, h⟩ := h fun i pends => by
      have := distinct i pends
      simp only [Stmt.statement, countIn] at this
      omega
    exact ⟨l, .single h (by simp [hne]) (by simpa [hne] using h.fits) (fun _ => ⟨hkind, hinfo, rfl⟩) hexit⟩
  exprStmt {i x x' action act s s1 s2 s3 s4} hkind hinfo henter h hx hexit distinct := by
    cases henter
    have distinct' : ∀ i, s.Pends file i → (x.term false).count i ≤ 1 := by
      intro j pends
      have := distinct j pends
      simp only [Stmt.statement, Stmt.parts, countIn, countAll] at this
      rw [Expr.term]
      omega
    obtain ⟨l, h⟩ := h fun i pends => by
      have := distinct' i pends
      simp only [Expr.term, Term.count] at this
      omega
    have self := h.self_not_expanded distinct'
    have kept := h.fits
    rcases h.report hkind hinfo distinct' (.inl rfl) hx with ⟨rfl, h⟩ | ⟨e, l', rfl, huses, -, h⟩
    · exact ⟨l, .single h (by simp [Stmt.parts]) ⟨.of_kept kept self, trivial⟩ (fun _ => ⟨rfl, rfl, rfl⟩) hexit⟩
    · have hnone : e.uses = none := huses.mpr rfl
      have hfits := h.fits
      rw [Expanded.inPlace, hnone] at h
      rw [hnone] at hfits
      exact ⟨l', .single h (by simp [Stmt.kind, Stmt.parts, exprTerms]) hfits (by simp) hexit⟩

/-- A pass that does not fail settles its file. -/
theorem expandFile_swept {info : TypeInfo} {file : Nat} {tree : File} {state : ExpandState}
    (going : (expandFile info file tree state).fault = none)
    (distinct : ∀ i b, state.collected.Pending file i b → tree.term.count i ≤ 1) :
    ∃ l s', s'.shared = (expandFile info file tree state).state ∧ SweptTerms info file { shared := state } [tree.term]
        [(expandFile info file tree state).tree.term] false s' l := by
  have walked : Succeeds (walkFile (expander info file) tree) { shared := state } (expandFile info file tree state).tree
      (walkFile (expander info file) tree ⟨{ shared := state }, none⟩).2.state := by
    unfold expandFile at going ⊢
    unfold Succeeds
    generalize walkFile (expander info file) tree ⟨{ shared := state }, none⟩ = result at going ⊢
    obtain ⟨tree', s', failure⟩ := result
    cases going
    rfl
  obtain ⟨l, h⟩ := (follows_expander info file).inFile tree walked fun i ⟨b, pending⟩ => by
    have := distinct i b pending
    simpa [countAll] using this
  exact ⟨l, _, rfl, h⟩

end CheckHandle
