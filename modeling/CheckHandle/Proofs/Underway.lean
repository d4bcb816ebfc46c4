import CheckHandle.Check.FixedPoint
import CheckHandle.Proofs.Assembly
import CheckHandle.Proofs.Collecting
import CheckHandle.Proofs.Pass

/-!
# Files during the passes

After any passes with any types, a file is the collected file with the checks
settled that are no longer pending, and in each statement these come before
those that are still pending.
-/

namespace CheckHandle

open Std List

variable {i : NodeId} {b : CheckBinding} {files₀ : List SourceFile} {state : ExpandState}

variable {s : Statement} {c₀ : Collected} {n₀ : NodeId}

attribute [local simp] blocksAll

/-! ## Passes -/

/-- Passes over marked files, in any order and with any types, none of which
fails. -/
inductive Passes (files₀ : List SourceFile) (state₀ : ExpandState) : List SourceFile → ExpandState → Prop
  | none : Passes files₀ state₀ files₀ state₀
  | pass {files : List SourceFile} {state : ExpandState} {k : Nat} {f : SourceFile}
      (info : TypeInfo) (before : Passes files₀ state₀ files state) (file : files[k]? = some f)
      (marked : f.isMarked = true) (going : (expandFile info k f.tree state).fault = Option.none) :
    Passes files₀ state₀ (files.set k { f with tree := (expandFile info k f.tree state).tree })
      (expandFile info k f.tree state).state

/-! ## A file during the passes -/

/-- A check of the file `file` was collected at the node `i`. -/
def Collected.Checks (c : Collected) (file : Nat) (i : NodeId) : Prop := ∃ b, c.Pending file i b

/-- A file as it was collected: its checks stand in statements of blocks, and
have identities below `n₀`. -/
structure Marked (c₀ : Collected) (n₀ : NodeId) (file : Nat) (t₀ : Term) : Prop where
  distinct : ∀ i, t₀.count i ≤ 1
  below : ∀ {i}, c₀.Checks file i → i < n₀
  outside : ∀ {i}, c₀.Checks file i → i ∉ t₀.own

/-- The file `t₀` has become `t`, the checks in `l` have been expanded, and
those in `c` are pending. -/
structure SettledFile (c₀ : Collected) (n₀ : NodeId) (file : Nat) (t₀ t : Term) (c : Collected)
    (l : Ledger) : Prop where
  tree : t₀.settle l = ([t], [])
  keys : ∀ {i e}, l i = some e → c₀.Checks file i
  checks : ∀ {i b}, c₀.Pending file i b → c.checks.get? i = if (l i).isSome then none else some b
  pending : ∀ {i b}, c.Pending file i b → c₀.Pending file i b
  made : ∀ {i e j}, l i = some e → 0 < e.count j → n₀ ≤ j
  stems : ∀ {i e b}, l i = some e → c₀.Pending file i b → ∃ info n n', e.Stems info c₀ b n n'
  /-- The checks that are pending come after those that are not. -/
  inTurn : ∀ b ∈ t₀.blocks, ∀ s ∈ b.2, s.own.Pairwise fun i j => c₀.Checks file i → l i = none → l j = none
  carried : ∀ b ∈ t₀.blocks, (b.1, settleIn l b.2) ∈ t.blocks

theorem mem_settleIn {l : Ledger} {ss : List Statement} (h : s ∈ ss) (hparts : (settleAll l s.parts).1 ≠ []) :
    Statement.mk s.kind s.info (settleAll l s.parts).1 ∈ settleIn l ss := by
  rw [settleIn_eq_flatMap, mem_flatMap]
  refine ⟨s, h, ?_⟩
  obtain ⟨kind, info, parts⟩ := s
  have remains : remaining kind info parts (settleAll l parts).1
      = [.mk kind info (settleAll l parts).1] := if_neg fun h => hparts h.2.2
  simp [Statement.settle, settleIn, remains, Statement.kind, Statement.info, Statement.parts]

namespace SettledFile

variable {c c' : Collected} {file : Nat} {t₀ t t' : Term} {l l' : Ledger}

theorem start (c₀ : Collected) (n₀ : NodeId) (file : Nat) (t₀ : Term) :
    SettledFile c₀ n₀ file t₀ t₀ c₀ fun _ => none where
  tree := t₀.settle_empty
  keys h := nomatch h
  checks h := h.1
  pending h := h
  made h := nomatch h
  stems h := nomatch h
  inTurn _ _ _ _ := pairwise_of_forall fun _ _ _ _ => rfl
  carried b hb := by
    rw [settleIn_empty]
    exact hb

/-- What is pending was collected and has not been expanded. -/
theorem pending_iff (h : SettledFile c₀ n₀ file t₀ t c l) : c.Pending file i b ↔ c₀.Pending file i b ∧ l i = none := by
  constructor
  · intro hb
    have hb0 := h.pending hb
    refine ⟨hb0, ?_⟩
    rcases hl : l i with _ | e
    · rfl
    · have := h.checks hb0
      rw [hl, hb.1] at this
      cases this
  · rintro ⟨hb0, hl⟩
    refine ⟨?_, hb0.2⟩
    rw [h.checks hb0, hl]
    rfl

/-- No pending check stands outside the blocks. -/
theorem outside (h : SettledFile c₀ n₀ file t₀ t c l) (marked : Marked c₀ n₀ file t₀) (hi : i ∈ t.own) : ¬ c.Checks file i := by
  have own : ∀ i ∈ ownAll (t₀.settle l).1, ¬ c₀.Checks file i :=
    Term.own_settle _ (fun _ _ _ hl hj hc => Nat.not_le.mpr (marked.below hc) (h.made hl hj)) t₀
      fun _ hi hc => marked.outside hc hi
  rw [h.tree] at own
  rintro ⟨b, hb⟩
  exact own i (by simpa [ownAll] using hi) ⟨b, h.pending hb⟩

/-- The file after a pass over another one. -/
theorem other {other : Nat} (h : SettledFile c₀ n₀ file t₀ t c l) (hne : other ≠ file)
    (hkeys : ∀ {i e}, l' i = some e → c.Checks other i)
    (hchecks : ∀ i, c'.checks.get? i = if (l' i).isSome then none else c.checks.get? i) :
    SettledFile c₀ n₀ file t₀ t c' l := by
  -- a check of this file is none of the other
  have same : ∀ {i b}, c₀.Pending file i b → c'.checks.get? i = c.checks.get? i := by
    intro i b hb
    rw [hchecks]
    rcases hl' : l' i with _ | e
    · rfl
    · obtain ⟨b', hb'⟩ := hkeys hl'
      have := h.checks hb
      rw [hb'.1] at this
      split at this
      · cases this
      · cases this
        exact absurd (hb'.2.symm.trans hb.2) hne
  exact { h with
    checks := fun hb => by
      rw [same hb]
      exact h.checks hb
    pending := fun {i b} hb => by
      refine h.pending ⟨?_, hb.2⟩
      have := hb.1
      rw [hchecks] at this
      split at this
      · cases this
      · exact this }

/-- In the order of its checks, a settled statement is as it was. -/
theorem filter_pairwise_own (h : SettledFile c₀ n₀ file t₀ t c l)
    (below : ∀ {i}, c₀.Checks file i → i < n₀) {R : NodeId → NodeId → Prop}
    (inTurn : s.own.Pairwise fun i j => c₀.Checks file i → l i = none → l j = none)
    (turn : (ownAll (settleAll l s.parts).1).Pairwise R) :
    s.own.Pairwise fun i j => c.Checks file i → c.Checks file j → R i j := by
  classical
  let P : NodeId → Bool := fun i => decide (c.Checks file i)
  have hP : ∀ {i}, P i = true ↔ c₀.Checks file i ∧ l i = none := by
    intro i
    rw [decide_eq_true_iff]
    constructor
    · rintro ⟨b, hb⟩
      obtain ⟨hb, hl⟩ := h.pending_iff.mp hb
      exact ⟨⟨b, hb⟩, hl⟩
    · rintro ⟨⟨b, hb⟩, hl⟩
      exact ⟨b, h.pending_iff.mpr ⟨hb, hl⟩⟩
  have hfilter : (ownAll (settleAll l s.parts).1).filter P = s.own.filter P := by
    refine filter_ownAll_settle (fun i e hl => ?_) (fun i e j hl hj => ?_) s.parts
      (inTurn.imp fun {i j} hij hi => hij (hP.mp hi).1 (hP.mp hi).2)
    · rw [← Bool.not_eq_true, hP, hl]
      exact nofun
    · rw [← Bool.not_eq_true, hP]
      intro hj'
      exact absurd (below hj'.1) (Nat.not_lt.mpr (h.made hl hj))
  have := turn.filter P
  rw [hfilter, pairwise_filter] at this
  exact this.imp fun {i j} hij hi hj => hij (decide_eq_true hi) (decide_eq_true hj)

section Pass

variable {info : TypeInfo} {s' : Expanding}

/-- The file after a pass over it. -/
theorem pass (h : SettledFile c₀ n₀ file t₀ t state.collected l) (marked : Marked c₀ n₀ file t₀)
    (hsame : ∃ checks scopes, state.collected = { c₀ with checks, scopes })
    (hn : n₀ ≤ state.nextId)
    (swept : SweptTerms info file { shared := state } [t] [t'] false s' l') :
    SettledFile c₀ n₀ file t₀ t' s'.shared.collected (l.or l') := by
  have keys : ∀ {i e}, l' i = some e → c₀.Checks file i ∧ l i = none := by
    intro i e hl'
    obtain ⟨b, hb⟩ := (swept.keys hl').1
    obtain ⟨hb, hl⟩ := h.pending_iff.mp hb
    exact ⟨⟨b, hb⟩, hl⟩
  have fresh : ∀ {j}, n₀ ≤ j → l' j = none := by
    intro j hj
    rcases hl' : l' j with _ | e
    · rfl
    · exact absurd (marked.below (keys hl').1) (Nat.not_lt.mpr hj)
  have apart : l.Apart l' := {
    keys := fun {i e} hl => by
      rcases hl' : l' i with _ | e'
      · rfl
      · rw [(keys hl').2] at hl
        cases hl
    made := fun hl hj => fresh (h.made hl hj) }
  have precedes : ∀ b ∈ t₀.blocks, ∀ s ∈ b.2, l.Precedes l' s.own := by
    intro b hb s hs
    refine (h.inTurn b hb s hs).imp fun {i j} hij hl' => ?_
    obtain ⟨e, he⟩ := Option.ne_none_iff_exists'.mp hl'
    exact hij (keys he).1 (keys he).2
  -- outside the blocks there is nothing to expand
  have outside : ∀ i ∈ t₀.own, l' i = none := by
    intro i hi
    rcases hl' : l' i with _ | e
    · rfl
    · exact absurd hi (marked.outside (keys hl').1)
  have outside' : ∀ i ∈ ownAll [t], l' i = none := by
    intro i hi
    rcases hl' : l' i with _ | e
    · rfl
    · exact absurd (swept.keys hl').1 (h.outside marked (by simpa [ownAll] using hi))
  obtain ⟨_, -, hbefore⟩ := settleAll_of_own [t] outside'
  have hsettle : settleAll l' [t] = ([t'], []) := by
    rw [← swept.settled, hbefore]
  have settle_or : ∀ b ∈ t₀.blocks,
      settleIn (l.or l') b.2 = settleIn l' (settleIn l b.2) := fun b hb =>
    settleIn_or apart b.2 (precedes b hb) fun b' hb' =>
      precedes b' (Term.blocks_subset hb hb')
  exact {
    tree := by
      have own : l.Precedes l' t₀.own := (pairwise_of_forall_mem_list fun i hi _ _ hl' => absurd (outside i hi) hl')
      rw [Term.settle_or apart t₀ own precedes, h.tree, hsettle]
      rfl
    keys := fun {i e} hl => by
      rcases hli : l i with _ | e'
      · rw [Ledger.or, hli, Option.none_or] at hl
        exact (keys hl).1
      · exact h.keys hli
    checks := fun {i b} hb => by
      rw [swept.checks]
      show (if _ then none else state.collected.checks.get? i) = _
      rw [h.checks hb, Ledger.or]
      rcases l i with _ | e <;> rcases l' i with _ | e' <;> rfl
    pending := fun {i b} hb => h.pending (by
      have := hb.1
      rw [swept.checks] at this
      split at this
      · cases this
      · exact ⟨this, hb.2⟩)
    made := fun {i e j} hl hj => by
      rcases hli : l i with _ | e'
      · rw [Ledger.or, hli, Option.none_or] at hl
        obtain ⟨b, hb⟩ := (swept.keys hl).1
        obtain ⟨_, _, _, m, _, hm, -, hmade, -⟩ := swept.made hl hb
        exact hn.trans (hm.trans (hmade.le_of_count hj))
      · rw [Ledger.or, hli, Option.some_or] at hl
        cases hl
        exact h.made hli hj
    stems := fun {i e b} hl hb => by
      rcases hli : l i with _ | e'
      · rw [Ledger.or, hli, Option.none_or] at hl
        obtain ⟨checks, scopes, hcollected⟩ := hsame
        have stems : e.Stems info state.collected b state.nextId s'.shared.nextId :=
          swept.made hl (h.pending_iff.mpr ⟨hb, (keys hl).2⟩)
        rw [hcollected] at stems
        exact ⟨info, _, _, stems.of_kept⟩
      · rw [Ledger.or, hli, Option.some_or] at hl
        cases hl
        exact h.stems hli hb
    inTurn := fun b hb s hs => by
      have turn : (ownAll (settleAll l s.parts).1).Pairwise fun i j =>
          state.collected.Checks file i → l' i = none → l' j = none := by
        rcases hparts : (settleAll l s.parts).1 with _ | ⟨p, ps⟩
        · rw [ownAll]
          exact .nil
        · rw [← hparts]
          refine swept.inner (b.1, settleIn l b.2)
            (by simpa using h.carried b hb) (.mk s.kind s.info _) ?_
          exact mem_settleIn hs (by rw [hparts]; exact nofun)
      have pairs := filter_pairwise_own h marked.below (h.inTurn b hb s hs) turn
      refine (List.Pairwise.and (h.inTurn b hb s hs) pairs).imp fun {i j} hij hi hl => ?_
      obtain ⟨hli, hli'⟩ := Option.or_eq_none_iff.mp hl
      refine Option.or_eq_none_iff.mpr ⟨hij.1 hi hli, ?_⟩
      rcases hlj' : l' j with _ | e
      · rfl
      · obtain ⟨b, hb⟩ := hi
        have pends : state.collected.Checks file i := ⟨b, h.pending_iff.mpr ⟨hb, hli⟩⟩
        rw [hij.2 pends (swept.keys hlj').1 pends hli'] at hlj'
        cases hlj'
    carried := fun b hb => by
      have := swept.carried (b.1, settleIn l b.2) (by
        simpa using h.carried b hb)
      rw [settle_or b hb]
      simpa [hsettle, blocksIn] using this }

end Pass

end SettledFile

/-! ## All files during the passes -/

variable {files : List SourceFile} {k : Nat} {f : SourceFile}

theorem countFiles_set (h : files[k]? = some f) (f' : SourceFile) (i : NodeId) :
    countFiles i (files.set k f') + f.tree.term.count i = countFiles i files + f'.tree.term.count i := by
  induction files generalizing k with
  | nil => cases h
  | cons g files ih =>
    cases k with
    | zero =>
      cases h
      simp only [set_cons_zero, countFiles]
      omega
    | succ k =>
      have := ih (k := k) h
      simp only [set_cons_succ, countFiles]
      omega

theorem le_countFiles (h : files[k]? = some f) (i : NodeId) : f.tree.term.count i ≤ countFiles i files := by
  induction files generalizing k with
  | nil => cases h
  | cons g files ih =>
    cases k with
    | zero =>
      cases h
      exact Nat.le_add_right _ _
    | succ k => exact Nat.le_trans (ih h) (Nat.le_add_left _ _)

/-- The files `files₀` have become `files` by passes from `c₀` and `n₀` on. -/
structure Underway (files₀ : List SourceFile) (c₀ : Collected) (n₀ : NodeId)
    (files : List SourceFile) (state : ExpandState) : Prop where
  length_eq : files.length = files₀.length
  same : ∃ checks scopes, state.collected = { c₀ with checks, scopes }
  counter : n₀ ≤ state.nextId
  distinct : ∀ i, countFiles i files + spare state.nextId i ≤ 1
  settled : ∀ {k f₀ f}, files₀[k]? = some f₀ → files[k]? = some f →
    ∃ l, SettledFile c₀ n₀ k f₀.tree.term f.tree.term state.collected l

theorem Underway.once (h : Underway files₀ c₀ n₀ files state) (hf : files[k]? = some f)
    (i : NodeId) : f.tree.term.count i ≤ 1 :=
  Nat.le_trans (le_countFiles hf i) (Nat.le_trans (Nat.le_add_right _ _) (h.distinct i))

theorem Underway.exists_origin (h : Underway files₀ c₀ n₀ files state)
    (hf : files[k]? = some f) : ∃ f0, files₀[k]? = some f0 :=
  ⟨_, getElem?_eq_getElem (h.length_eq ▸ (List.getElem?_eq_some_iff.mp hf).1)⟩

theorem Passes.underway {state0 : ExpandState} (passes : Passes files₀ state0 files state)
    (distinct : ∀ i, countFiles i files₀ + spare state0.nextId i ≤ 1)
    (marked : ∀ {k f}, files₀[k]? = some f → Marked state0.collected state0.nextId k f.tree.term) :
    Underway files₀ state0.collected state0.nextId files state := by
  induction passes with
  | none =>
    exact ⟨rfl, ⟨_, _, rfl⟩, .refl, distinct, fun h h' => by
      cases h.symm.trans h'
      exact ⟨_, .start ..⟩⟩
  | @pass files state k f info before file _ going ih =>
    obtain ⟨l', s', hs', swept⟩ := expandFile_swept going fun i _ _ => by
      have := ih.distinct i
      have := le_countFiles file i
      omega
    have fresh := swept.fresh
    have counter := swept.counter
    obtain ⟨checks1, scopes1, hsame⟩ := ih.same
    obtain ⟨checks2, scopes2, hkept⟩ := swept.kept
    rw [hs'] at fresh counter hkept
    exact {
      length_eq := by rw [length_set, ih.length_eq]
      same := ⟨checks2, scopes2, by rw [hkept, hsame]⟩
      counter := ih.counter.trans counter
      distinct := fun i => by
        have h1 := ih.distinct i
        have h2 := countFiles_set file { f with tree := (expandFile info k f.tree state).tree } i
        have h3 := le_countFiles file i
        have h4 := fresh i
        simp only [countAll] at h2 h4
        omega
      settled := fun {j f0 f'} hf0 hf' => by
        by_cases hj : k = j
        · subst hj
          obtain ⟨l, settled⟩ := ih.settled hf0 file
          rw [getElem?_set_self (List.getElem?_eq_some_iff.mp file).1] at hf'
          cases hf'
          rw [← hs']
          exact ⟨_, settled.pass (marked hf0) ih.same ih.counter swept⟩
        · rw [getElem?_set_ne hj] at hf'
          obtain ⟨l, settled⟩ := ih.settled hf0 hf'
          rw [← hs']
          exact ⟨l, settled.other hj (fun hl' => (swept.keys hl').1) swept.checks⟩ }

/-! ## What is collected -/

theorem add_le_countFiles {j : Nat} {g : SourceFile} (hf : files[j]? = some f)
    (hg : files[k]? = some g) (hne : j ≠ k) (i : NodeId) :
    f.tree.term.count i + g.tree.term.count i ≤ countFiles i files := by
  induction files generalizing j k with
  | nil => cases hf
  | cons h files ih =>
    cases j with
    | zero =>
      cases hf
      cases k with
      | zero => exact absurd rfl hne
      | succ k => exact Nat.add_le_add_left (le_countFiles (k := k) hg i) _
    | succ j =>
      cases k with
      | zero =>
        cases hg
        have := le_countFiles (k := j) hf i
        rw [countFiles]
        omega
      | succ k => exact Nat.le_trans (ih hf hg (by omega)) (Nat.le_add_left _ _)

theorem FilesFreed.countFiles_le {index : Nat} {out out' : Collected} {files' : List SourceFile}
    (h : FilesFreed index out out' files files') (i : NodeId) :
    countFiles i files' ≤ countFiles i files := by
  have le : ∀ {k : Nat} {f f'}, files[k]? = some f → files'[k]? = some f' →
      f'.tree.term.count i ≤ f.tree.term.count i := fun hf hf' => by
    obtain ⟨R, hR, -⟩ := (h.freed hf hf').tree
    rw [hR]
    exact Term.count_drop_le _ _ _
  have length_eq := h.length_eq
  clear h
  induction files generalizing files' with
  | nil =>
    obtain rfl := eq_nil_of_length_eq_zero length_eq
    exact .refl
  | cons f files ih =>
    rcases files' with _ | ⟨f', files'⟩
    · cases length_eq
    · exact Nat.add_le_add (le (k := 0) rfl rfl)
        (ih (fun {k _ _} hf hf' => le (k := k + 1) hf hf') (Nat.succ.inj length_eq))

theorem StandsIn.count_pos {t : Term} {stmt : NodeId} (h : StandsIn (standing [t]) stmt i) : 0 < t.count i := by
  obtain ⟨s, hs, -, node, hnode, rfl, -⟩ := h
  obtain ⟨b, hb, hs⟩ := mem_flatMap.mp hs
  have hown : node.1.id ∈ s.own := by
    rw [Statement.own, ownAll_eq_nodes]
    exact mem_map_of_mem hnode
  simpa [countAll] using countAll_pos_of_blocks hb hs hown

/-- A package in which checks and handlers have been collected. -/
structure Gleaned (q : Package) (c : Collected) : Prop where
  distinct : ∀ i, countFiles i q.files + spare q.nextId i ≤ 1
  /-- A check stands in its statement. -/
  stands : ∀ {i b}, c.checks.get? i = some b → ∃ f, q.files[b.file]? = some f ∧
    StandsIn (standing [f.tree.term]) b.stmt i

theorem gleaned_of_collect {inputs : List SourceInput} {p q : Package} {c : Collected}
    (assembled : Package.assemble inputs = .ok p) (collected : p.collect = .ok (q, c)) :
    Gleaned q c := by
  have distinct := assemble_distinct assembled
  obtain ⟨hq, freed⟩ := collect_ok collected fun i =>
    Nat.le_trans (Nat.le_add_right _ _) (distinct i)
  have hnext : q.nextId = p.nextId := by rw [hq]
  constructor
  · intro i
    have := freed.countFiles_le i
    have := distinct i
    rw [hnext]
    omega
  · intro i b hb
    rcases freed.bound hb with hb | ⟨-, k, f, hfile, hf, -, stands⟩
    · cases hb
    · rw [Nat.zero_add] at hfile
      exact ⟨f, hfile ▸ hf, stands⟩

namespace Gleaned

variable {q : Package} {c : Collected}

theorem distinct_file (h : Gleaned q c) (hf : q.files[k]? = some f) (i : NodeId) : f.tree.term.count i ≤ 1 :=
  Nat.le_trans (le_countFiles hf i) (Nat.le_trans (Nat.le_add_right _ _) (h.distinct i))

theorem distinct_terms (h : Gleaned q c) (hf : q.files[k]? = some f) : Distinct [f.tree.term] :=
  distinct_of_count fun i => by simpa [countAll] using h.distinct_file hf i

theorem stands_in (h : Gleaned q c) (hf : q.files[k]? = some f) (hb : c.Pending k i b) : StandsIn (standing [f.tree.term]) b.stmt i := by
  obtain ⟨hb, rfl⟩ := hb
  obtain ⟨f', hf', stands⟩ := h.stands hb
  cases hf.symm.trans hf'
  exact stands

theorem marked (h : Gleaned q c) (hf : q.files[k]? = some f) : Marked c q.nextId k f.tree.term where
  distinct := h.distinct_file hf
  below {i} hi := by
    obtain ⟨b, hb⟩ := hi
    have pos := (h.stands_in hf hb).count_pos
    refine Nat.not_le.mp fun hle => ?_
    have := h.distinct i
    have := le_countFiles hf i
    rw [spare, if_pos hle] at *
    omega
  outside {i} hi hown := by
    obtain ⟨b, hb⟩ := hi
    obtain ⟨s, hs, -, node, hnode, rfl, -⟩ := h.stands_in hf hb
    rw [Term.own_eq_nodes] at hown
    obtain ⟨node', hnode', hid⟩ := mem_map.mp hown
    exact (h.distinct_terms hf).outside (by simpa [nodesAll] using hnode') hs hnode hid

/-- A node of a file is a check of that file or of none. -/
theorem pending_of_count (h : Gleaned q c) (hf : q.files[k]? = some f) (hb : c.checks.get? i = some b)
    (hi : 0 < f.tree.term.count i) : c.Pending k i b := by
  refine ⟨hb, Classical.not_not.mp fun hne => ?_⟩
  obtain ⟨f', hf', stands⟩ := h.stands hb
  have := add_le_countFiles hf' hf hne i
  have := stands.count_pos
  have := h.distinct i
  omega

end Gleaned

end CheckHandle
