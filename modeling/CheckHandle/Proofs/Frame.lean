import CheckHandle.Proofs.Faithful
import CheckHandle.Proofs.Progress
import CheckHandle.Proofs.Underway

/-!
# What a pass leaves alone

A pass changes a file at the checks that it expands and nowhere else: what
takes the place of a check, its definition and its guard are all that is new,
and of the old nodes only the call of the check is gone. A run that ends well
leaves no check in any file.
-/

namespace CheckHandle

open Std List

attribute [local simp] Term.blocks blocksAll countNodes countIn countAll standing

/-! ## What becomes of a node -/

/-- How often an identity is that of an expression of these statements. -/
def countWithin (i : NodeId) (ss : List Statement) : Nat := (ss.map fun s => countNodes i (nodesAll s.parts)).sum

theorem countWithin_append (i : NodeId) (ss ts : List Statement) :
    countWithin i (ss ++ ts) = countWithin i ss + countWithin i ts := by
  simp [countWithin]

section Gone

variable {l : Ledger} {i : NodeId}

mutual

/-- Settling takes out the nodes of expanded checks, and adds none with such an
identity. -/
theorem Term.count_settle_le (made : ∀ j e, l j = some e → e.count i = 0) : ∀ t : Term, (l i = none → t.count i = 0) →
    countAll i (t.settle l).1 + countIn i (t.settle l).2 + countNodes i t.nodes
      + countWithin i (standing [t]) ≤ t.count i
  | .expr listed kind info parts, absent => by
    have ih := countAll_settle_le made parts fun h => by
      have := absent h
      rw [Term.count] at this
      omega
    have hnodes : countNodes i (Term.expr listed kind info parts).nodes
        = countNodes i (nodesAll parts) + info.count i := by
      simp [Term.nodes]
    rw [hnodes, standing_expr, Term.settle]
    rcases he : l info.id with _ | e
    · -- a node that is not expanded is another one
      have other : info.count i = 0 := by
        rw [Info.count, if_neg]
        rintro rfl
        have := absent he
        rw [Term.count, Info.count_self] at this
        omega
      simp only [countAll, Term.count]
      omega
    · have hmade := made _ e he
      have := e.countIn_inserted_le listed (settleAll l parts).1 i
      rw [Term.count]
      simp only [countIn_append]
      omega
  | .group kind info parts, absent => by
    have ih := countAll_settle_le made parts fun h => by
      have := absent h
      rw [Term.count] at this
      omega
    rw [standing_group, Term.settle]
    simp only [countAll, Term.count, Term.nodes]
    omega
  | .fixed kind info parts, _ => by
    simp [Term.settle, Term.nodes, countWithin]
  | .block info ss, absent => by
    have ih := countIn_settle_le made ss fun h => by
      have := absent h
      rw [Term.count] at this
      omega
    rw [standing_block, Term.settle]
    simp only [countAll, Term.count, countIn, Term.nodes, countNodes, map_nil, sum_nil]
    omega

theorem countAll_settle_le (made : ∀ j e, l j = some e → e.count i = 0) : ∀ ts : List Term,
    (l i = none → countAll i ts = 0) →
    countAll i (settleAll l ts).1 + countIn i (settleAll l ts).2
      + countNodes i (nodesAll ts) + countWithin i (standing ts) ≤ countAll i ts
  | [], _ => by
    simp [settleAll, nodesAll, countWithin]
  | t :: ts, absent => by
    have h1 := Term.count_settle_le made t fun h => by
      have := absent h
      rw [countAll] at this
      omega
    have h2 := countAll_settle_le made ts fun h => by
      have := absent h
      rw [countAll] at this
      omega
    rw [settleAll, standing_cons, countWithin_append, nodesAll, countNodes_append,
      countAll_append, countIn_append, countAll]
    omega

theorem countIn_settle_le (made : ∀ j e, l j = some e → e.count i = 0) :
    ∀ ss : List Statement, (l i = none → countIn i ss = 0) →
    countIn i (settleIn l ss) + countWithin i (standingIn ss) ≤ countIn i ss
  | [], _ => by
    simp [settleIn, standingIn, blocksIn, countWithin]
  | .mk kind info parts :: ss, absent => by
    have h1 := countAll_settle_le made parts fun h => by
      have := absent h
      rw [countIn] at this
      omega
    have h2 := countIn_settle_le made ss fun h => by
      have := absent h
      rw [countIn] at this
      omega
    have h3 := countIn_remaining_le i kind info parts (settleAll l parts).1
    simp only [settleIn, standingIn, blocksIn, standing, flatMap_append,
      countWithin_append, countIn_append, countIn] at h1 h2 ⊢
    simp only [countWithin, map_cons, sum_cons, Statement.parts] at h1 h2 ⊢
    omega

end

end Gone

variable {i : NodeId} {q : Package} {c : Collected} {f₀ : SourceFile}
  {files0 files : List SourceFile} {state0 state : ExpandState} {info : TypeInfo}

/-- A check that stands in a statement is counted there. -/
theorem StandsIn.countWithin_pos {ss : List Statement} {stmt : NodeId} (h : StandsIn ss stmt i) :
    0 < countWithin i ss := by
  obtain ⟨s, hs, -, node, hnode, rfl, -⟩ := h
  exact Nat.lt_of_lt_of_le (countNodes_pos hnode)
    (le_sum_of_mem (fun s => countNodes node.1.id (nodesAll s.parts)) hs)

/-- Of a check of any file, a file without pending checks has nothing. -/
theorem SettledFile.count_eq_zero {c' : Collected} {k : Nat} {t : Term} {l : Ledger}
    (gleaned : Gleaned q c) (hf0 : q.files[k]? = some f₀)
    (settled : SettledFile c q.nextId k f₀.tree.term t c' l) (done : ∀ i, c'.checks.get? i = none)
    {b : CheckBinding} (hb : c.checks.get? i = some b) : t.count i = 0 := by
  have below : i < q.nextId := by
    obtain ⟨f, hf, stands⟩ := gleaned.stands hb
    exact (gleaned.marked hf).below ⟨b, hb, rfl⟩
  have made : ∀ j e, l j = some e → e.count i = 0 := fun j e hl =>
    Nat.eq_zero_of_not_pos fun hi => Nat.not_le.mpr below (settled.made hl hi)
  have expanded : c.Pending k i b → l i ≠ none := by
    intro pending hl
    have := settled.checks pending
    rw [done, hl] at this
    cases this
  have absent : l i = none → f₀.tree.term.count i = 0 := fun hl =>
    Nat.eq_zero_of_not_pos fun hi => expanded (gleaned.pending_of_count hf0 hb hi) hl
  have le := Term.count_settle_le made f₀.tree.term absent
  rw [settled.tree] at le
  simp only [countAll] at le
  rcases Nat.eq_zero_or_pos (f₀.tree.term.count i) with hzero | hpos
  · omega
  · have stands := gleaned.stands_in hf0 (gleaned.pending_of_count hf0 hb hpos)
    have := stands.countWithin_pos
    have := gleaned.distinct_file hf0 i
    omega

/-! ## Rounds are passes -/

/-- Passes change the trees of marked files only. -/
theorem Passes.kept (passes : Passes files0 state0 files state) {j : Nat}
    (hf0 : files0[j]? = some f₀) : ∃ tree, files[j]? = some { f₀ with tree } ∧
      (f₀.isMarked = false → tree = f₀.tree) := by
  induction passes with
  | none => exact ⟨f₀.tree, hf0, fun _ => rfl⟩
  | @pass files state k f info before file marked going ih =>
    obtain ⟨tree, hf, plain⟩ := ih
    by_cases hk : k = j
    · subst hk
      cases file.symm.trans hf
      refine ⟨(expandFile info k tree state).tree, ?_, fun h => ?_⟩
      · rw [getElem?_set_self (List.getElem?_eq_some_iff.mp file).1]
      · have marked : f₀.isMarked = true := marked
        rw [marked] at h
        cases h
    · exact ⟨tree, by rw [getElem?_set_ne hk, hf], plain⟩

/-- A round that does not fail makes one pass after another. -/
theorem expandFiles_passes (done : List SourceFile) (passes : Passes files0 state0 (done ++ files) state)
    (going : (expandFiles info done.length state files).failure = none) :
    Passes files0 state0 (done ++ (expandFiles info done.length state files).files)
      (expandFiles info done.length state files).state := by
  induction files generalizing done state with
  | nil => exact passes
  | cons f files ih =>
    rcases hmarked : f.isMarked with _ | _
    · rw [expandFiles_plain hmarked] at going ⊢
      have rest := ih (done ++ [f]) (by rwa [append_assoc])
      rw [length_append, append_assoc] at rest
      exact rest going
    · rcases hfault : (expandFile info done.length f.tree state).fault with _ | fault
      · rw [expandFiles_marked hmarked hfault] at going ⊢
        have here : (done ++ f :: files)[done.length]? = some f := by simp
        have next := passes.pass info here hmarked hfault
        rw [set_append_right _ _ .refl, Nat.sub_self, set_cons_zero] at next
        have rest := ih (done ++ [_]) (by rwa [append_assoc])
        rw [length_append, append_assoc] at rest
        exact rest going
      · rw [expandFiles_failed hmarked hfault] at going
        cases going

theorem iterations_passes {typing : Typing} {n : Nat}
    (going : ∀ k < n, (iterations typing c q k).round.failure = none) :
    Passes q.files ⟨c, ∅, q.nextId⟩ (iterations typing c q n).package.files
      ⟨(iterations typing c q n).collected, (iterations typing c q n).spliced,
        (iterations typing c q n).package.nextId⟩ := by
  induction n with
  | zero => exact .none
  | succ n ih =>
    have before := ih fun k hk => going k (Nat.lt_succ_of_lt hk)
    exact expandFiles_passes [] before (going n (Nat.lt_succ_self n))

/-- A run that ends well has made passes until no check was left. -/
theorem passes_of_outcome {p : Package} {typing : Typing} {summary : Summary} (collected : p.collect = .ok (q, c))
    (outcome : (p.expand typing).outcome = .ok summary) :
    ∃ state, Passes q.files ⟨c, ∅, q.nextId⟩ (p.expand typing).package.files state ∧
      ∀ i, state.collected.checks.get? i = none := by
  obtain ⟨n, ends⟩ := exists_ends_expand collected typing
  have progress := ends.progress
  obtain ⟨all, none_left⟩ := progress.ok_iff.mp ⟨summary, outcome⟩
  have passes := iterations_passes all
  rw [← progress.package_eq] at passes
  have empty : (iterations typing c q n).collected.checks.isEmpty = true := by
    rw [TreeMap.isEmpty_eq_size_eq_zero, beq_iff_eq]
    exact none_left
  exact ⟨_, passes, fun i => TreeMap.getElem?_of_isEmpty empty⟩

/-! ## The frame of a pass -/

/-- A pass over the file `file` turns `tree` into `tree'` by the expansions `l`,
and changes nothing else. -/
structure Framed (info : TypeInfo) (file : Nat) (tree tree' : File) (state state' : ExpandState)
    (l : Ledger) : Prop where
  /-- Each check that is expanded gives way to the uses of its results, its
  definition and its guard go before its statement, and all else stays. -/
  settled : tree.term.settle l = ([tree'.term], [])
  fits : tree.term.Fits l false
  /-- Only pending checks of this file are expanded, with new nodes. -/
  keys : ∀ {i e}, l i = some e → 0 < tree.term.count i ∧ ∃ b, state.collected.Pending file i b ∧
    e.Stems info state.collected b state.nextId state'.nextId
  /-- The tree has only the nodes that it had, and new ones. -/
  fresh : ∀ i, tree'.term.count i + spare state'.nextId i ≤ tree.term.count i + spare state.nextId i
  checks : ∀ i, state'.collected.checks.get? i = if (l i).isSome then none else state.collected.checks.get? i
  /-- The expansions determine the tree. -/
  unique : ∀ tree'' : File, tree.term.settle l = ([tree''.term], []) → tree'' = tree'

theorem framed_of_going {file : Nat} {tree : File}
    (going : (expandFile info file tree state).fault = none) (distinct : ∀ i, tree.term.count i ≤ 1)
    (outside : ∀ i ∈ tree.term.own, ¬ state.collected.Checks file i) :
    ∃ l, Framed info file tree (expandFile info file tree state).tree state
      (expandFile info file tree state).state l := by
  obtain ⟨l, s', hs', swept⟩ := expandFile_swept going fun i _ _ => distinct i
  have settled : tree.term.settle l = ([(expandFile info file tree state).tree.term], []) := by
    have none : ∀ i ∈ ownAll [tree.term], l i = none := by
      intro i hi
      rcases hl : l i with _ | e
      · rfl
      · exact absurd (swept.keys hl).1 (outside i (by simpa [ownAll] using hi))
    obtain ⟨_, -, hbefore⟩ := settleAll_of_own [tree.term] none
    rw [← settleAll_singleton, ← swept.settled, hbefore]
  have fresh := swept.fresh
  have checks := swept.checks
  rw [hs'] at fresh checks
  refine ⟨l, settled, ?_, fun {i e} hl => ?_, fun i => ?_, checks, fun tree'' h => ?_⟩
  · exact swept.fits.1
  · obtain ⟨⟨b, pending⟩, occurs⟩ := swept.keys hl
    refine ⟨by simpa using occurs, b, pending, ?_⟩
    have := swept.made hl pending
    rw [hs'] at this
    exact this
  · have := fresh i
    rw [settleAll_singleton, settled] at this
    simpa using this
  · rw [settled] at h
    simp only [Prod.mk.injEq, List.cons.injEq, and_true] at h
    exact (File.term_inj h).symm

/-- **A pass changes nothing but the checks that it expands.** That holds of
every pass over a marked file of a collected package, after any passes and with
any types. A run that ends well consists of such passes; it leaves plain files
as they are, and of the checks nothing. -/
theorem expand_framed {inputs : List SourceInput} {p : Package}
    (assembled : Package.assemble inputs = .ok p) (collected : p.collect = .ok (q, c)) :
    (∀ {files : List SourceFile} {state : ExpandState} {k : Nat} {f : SourceFile} (info : TypeInfo),
      Passes q.files ⟨c, ∅, q.nextId⟩ files state → files[k]? = some f →
      (expandFile info k f.tree state).fault = none →
      ∃ l, Framed info k f.tree (expandFile info k f.tree state).tree state (expandFile info k f.tree state).state l) ∧
    ∀ (typing : Typing) (summary : Summary), (p.expand typing).outcome = .ok summary →
      (∃ state, Passes q.files ⟨c, ∅, q.nextId⟩ (p.expand typing).package.files state) ∧
      (∀ {j : Nat} {f : SourceFile}, q.files[j]? = some f → ∃ tree,
        (p.expand typing).package.files[j]? = some { f with tree } ∧ (f.isMarked = false → tree = f.tree)) ∧
      ∀ {i b}, c.checks.get? i = some b → ∀ f ∈ (p.expand typing).package.files, f.tree.term.count i = 0 := by
  have gleaned := gleaned_of_collect assembled collected
  refine ⟨fun {files state k f} info passes hf going => ?_, fun typing summary outcome => ?_⟩
  · have underway := passes.underway gleaned.distinct gleaned.marked
    obtain ⟨f₀, hf₀⟩ := underway.exists_origin hf
    obtain ⟨l, settled⟩ := underway.settled hf₀ hf
    exact framed_of_going going (underway.once hf) fun i hi => settled.outside (gleaned.marked hf₀) hi
  · obtain ⟨_, passes, none_left⟩ := passes_of_outcome collected outcome
    refine ⟨⟨_, passes⟩, passes.kept, fun {i b} hb f hf => ?_⟩
    have underway := passes.underway gleaned.distinct gleaned.marked
    obtain ⟨k, hf⟩ := mem_iff_getElem?.mp hf
    obtain ⟨f₀, hf₀⟩ := underway.exists_origin hf
    obtain ⟨l, settled⟩ := underway.settled hf₀ hf
    exact settled.count_eq_zero gleaned hf₀ none_left hb

/-- A source with a check that is a statement, and one that is an argument. -/
def statementAndArgument : SourceInput :=
  ⟨"f.go2", "package main\nfunc f() \x7b\n\tcheck a()\n\th(check b())\n\x7d\n", true⟩

/-- The types of both. -/
def theirTypes : TypeInfo :=
  { types := ((∅ : TreeMap NodeId Ty).insert 5 (.named "" "error")).insert 11
      (.tuple [.basic .int, .named "" "error"]) }

theorem expand_framed_statementAndArgument : ∃ p q c f l summary, Package.assemble [statementAndArgument] = .ok p ∧
      p.collect = .ok (q, c) ∧ c.pending = 2 ∧ q.files[0]? = some f ∧
      Framed theirTypes 0 f.tree (expandFile theirTypes 0 f.tree ⟨c, ∅, q.nextId⟩).tree
        ⟨c, ∅, q.nextId⟩ (expandFile theirTypes 0 f.tree ⟨c, ∅, q.nextId⟩).state l ∧
      (p.expand fun _ _ => theirTypes).outcome = .ok summary ∧
      ∀ i b, c.checks.get? i = some b → ∀ f ∈ (p.expand fun _ _ => theirTypes).package.files,
        f.tree.term.count i = 0 := by
  have run : (collectInputs [statementAndArgument]).map (fun (p, q, c) => (c.pending,
      q.files[0]?.map fun f => ((expandFile theirTypes 0 f.tree ⟨c, ∅, q.nextId⟩).fault.isNone,
        (p.expand fun _ _ => theirTypes).outcome.toOption)))
      = some (2, some (true, some ⟨2, 0, 1⟩)) := by decide +kernel
  obtain ⟨⟨p, q, c⟩, h, run⟩ := Option.map_eq_some_iff.mp run
  obtain ⟨hp, hq⟩ := collect_of_collectInputs h
  obtain ⟨hc, run⟩ := Prod.mk.inj run
  obtain ⟨f, hf, run⟩ := Option.map_eq_some_iff.mp run
  obtain ⟨going, ended⟩ := Prod.mk.inj run
  obtain ⟨summary, outcome⟩ : ∃ summary, (p.expand fun _ _ => theirTypes).outcome = .ok summary := by
    rcases houtcome : (p.expand fun _ _ => theirTypes).outcome with e | summary
    · simp only [houtcome] at ended
      cases ended
    · exact ⟨summary, rfl⟩
  obtain ⟨l, framed⟩ := (expand_framed hp hq).1 theirTypes .none hf (Option.isNone_iff_eq_none.mp going)
  exact ⟨p, q, c, f, l, summary, hp, hq, hc, hf, framed, outcome,
    fun _ _ hb => ((expand_framed hp hq).2 _ summary outcome).2.2 hb⟩

end CheckHandle
