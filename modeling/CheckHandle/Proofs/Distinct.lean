import CheckHandle.Proofs.Frame

/-!
# Distinct identities

The identities of all nodes of a package, listed file by file. No identity is
listed twice, and all of them lie below the counter from which the next one is
drawn. Reading a package establishes that, and neither collecting its markers
nor any pass over its files breaks it. Identities are natural numbers, so the
counter never comes round.
-/

namespace CheckHandle

open Std List

def Package.ids (p : Package) : List NodeId := p.files.flatMap fun f => f.tree.term.ids

theorem count_idsFiles (files : List SourceFile) (i : NodeId) :
    (files.flatMap fun f => f.tree.term.ids).count i = countFiles i files := by
  induction files with
  | nil => rfl
  | cons f files ih => rw [flatMap_cons, count_append, Term.count_ids, ih, countFiles]

/-- No two nodes of the package have the same identity, and an identity that
is drawn next is none of theirs. -/
structure Package.Numbered (p : Package) : Prop where
  nodup : p.ids.Nodup
  below : ∀ i ∈ p.ids, i < p.nextId

theorem Package.numbered_of_count {p : Package}
    (distinct : ∀ i, countFiles i p.files + spare p.nextId i ≤ 1) : p.Numbered where
  nodup := by
    apply nodup_iff_count.mpr
    intro i
    have := distinct i
    rw [Package.ids, count_idsFiles]
    omega
  below := by
    intro i hi
    have listed : 0 < p.ids.count i := count_pos_iff.mpr hi
    rw [Package.ids, count_idsFiles] at listed
    have := distinct i
    by_cases drawn : i < p.nextId
    · exact drawn
    · rw [spare, if_pos (Nat.le_of_not_lt drawn)] at this
      omega

/-- The rounds of a run that ends without a fault in a file all go through. -/
theorem Progress.going {typing : Typing} {c : Collected} {q : Package} {n : Nat} {run : Run}
    (progress : Progress typing c q n run)
    (fine : ∀ f, run.outcome = .error f → f.cause.IsStagnation) :
    ∀ k < n, (iterations typing c q k).round.failure = none := by
  rcases ended : run.outcome with f | summary
  · obtain ⟨last, hlast, going, -⟩ := progress.undefined_iff.mp ⟨f, ended, fine f ended⟩
    intro k hk
    by_cases h : k = last
    · rw [h]
      exact going
    · exact (progress.pending_lt k (by omega)).1
  · exact (progress.ok_iff.mp ⟨summary, ended⟩).1

/-- **Every node has an identity of its own,** in a package as it is read,
after its markers are collected, and after every round of a run that goes
through, whatever the types are. So it is in the package that a run hands back,
whether all checks are expanded or some are left over. -/
theorem assemble_numbered {inputs : List SourceInput} {p : Package} (assembled : Package.assemble inputs = .ok p) :
    p.Numbered ∧ ∀ {q : Package} {c : Collected}, p.collect = .ok (q, c) → q.Numbered ∧ ∀ typing : Typing,
        (∀ n, (∀ k < n, (iterations typing c q k).round.failure = none) → (iterations typing c q n).package.Numbered) ∧
        ((∀ f, (p.expand typing).outcome = .error f → f.cause.IsStagnation) → (p.expand typing).package.Numbered) := by
  refine ⟨Package.numbered_of_count (assemble_distinct assembled), ?_⟩
  intro q c collected
  have gleaned := gleaned_of_collect assembled collected
  refine ⟨Package.numbered_of_count gleaned.distinct, ?_⟩
  intro typing
  have rounds : ∀ n, (∀ k < n, (iterations typing c q k).round.failure = none) →
      (iterations typing c q n).package.Numbered := by
    intro n going
    have underway := (iterations_passes going).underway gleaned.distinct gleaned.marked
    exact Package.numbered_of_count underway.distinct
  refine ⟨rounds, ?_⟩
  intro fine
  obtain ⟨n, ends⟩ := exists_ends_expand collected typing
  rw [ends.progress.package_eq]
  exact rounds n (ends.progress.going fine)

theorem assemble_numbered_statementAndArgument :
    ∃ p q c, Package.assemble [statementAndArgument] = .ok p ∧ p.collect = .ok (q, c) ∧
      c.pending = 2 ∧ p.ids.length = 16 ∧ p.Numbered ∧ q.Numbered ∧
      (p.expand fun _ _ => theirTypes).package.ids.length = 35 ∧
      (p.expand fun _ _ => theirTypes).package.Numbered := by
  have run : (collectInputs [statementAndArgument]).map (fun (p, _, c) =>
      (c.pending, p.ids.length, (p.expand fun _ _ => theirTypes).package.ids.length,
        (p.expand fun _ _ => theirTypes).outcome.toOption))
      = some (2, 16, 35, some ⟨2, 0, 1⟩) := by decide +kernel
  obtain ⟨⟨p, q, c⟩, h, run⟩ := Option.map_eq_some_iff.mp run
  obtain ⟨hp, hq⟩ := collect_of_collectInputs h
  obtain ⟨pending, run⟩ := Prod.mk.inj run
  obtain ⟨before, run⟩ := Prod.mk.inj run
  obtain ⟨behind, ended⟩ := Prod.mk.inj run
  obtain ⟨numbered, after⟩ := assemble_numbered hp
  refine ⟨p, q, c, hp, hq, pending, before, numbered, (after hq).1, behind, ?_⟩
  apply ((after hq).2 _).2
  intro f failed
  rw [failed] at ended
  cases ended

end CheckHandle
