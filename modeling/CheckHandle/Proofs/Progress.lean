import CheckHandle.Check.FixedPoint
import CheckHandle.Proofs.Expansion

/-!
# Progress of a run

A pass takes one check off the pending ones for each that it expands, and adds
none. So every round but the last leaves fewer checks, whatever the types are,
and a run ends after at most as many rounds as there are checks.
-/

namespace CheckHandle

open Std List

/-! ## Checks that a pass takes off -/

/-- A cause that a run gives only when it cannot go on. -/
def Cause.IsStagnation (cause : Cause) : Prop := ∃ remaining, cause = .undefinedType remaining

variable {info : TypeInfo} {ty : Ty} {x : Expr} {slot : Slot} {e : Fault} {s s' : Expanding}
  {file : Nat}

theorem resultNames_error {cause : Cause} (h : resultNames info ty = .error cause) : ¬ cause.IsStagnation := by
  rintro ⟨remaining, rfl⟩
  unfold resultNames at h
  split at h
  · split at h
    · cases h
    · split at h <;> cases h
  · split at h <;> cases h
  · injection h with h
    split at h <;> cases h
  · cases h

theorem visit_throw_error {σ ε α : Type} {e e' : ε} {s s' : σ}
    (h : (throw e : VisitM σ ε α) s = (.error e', s')) : e' = e ∧ s' = s := by
  cases h
  exact ⟨rfl, rfl⟩

theorem placeResults_error {names : List String} {errVar : String}
    (h : placeResults x slot names errVar s = (.error e, s')) :
    ¬ e.cause.IsStagnation ∧ s' = s := by
  cases slot with
  | statement => cases h
  | single =>
    simp only [placeResults] at h
    split at h
    · obtain ⟨rfl, rfl⟩ := visit_throw_error h
      exact ⟨by rintro ⟨_, ⟨⟩⟩, rfl⟩
    · cases h
  | list owner kind =>
    simp only [placeResults] at h
    split at h
    · simp only [visit_bind_error, visit_get] at h
      rcases h with h | ⟨_, _, ⟨rfl, rfl⟩, h⟩
      · cases h
      · split at h
        · rw [visit_bind_error] at h
          rcases h with h | ⟨_, _, h, -⟩
          · obtain ⟨rfl, rfl⟩ := visit_throw_error h
            exact ⟨by rintro ⟨_, ⟨⟩⟩, rfl⟩
          · exact absurd h visit_throw
        · cases h
    · cases h

theorem expandCheck_error {binding : CheckBinding} (h : expandCheck info x slot binding ty s = (.error e, s')) :
    ¬ e.cause.IsStagnation ∧ s'.shared.collected.checks = s.shared.collected.checks := by
  unfold expandCheck at h
  rcases hkinds : resultNames info ty with cause | kinds
  · rw [hkinds] at h
    obtain ⟨rfl, rfl⟩ := visit_throw_error h
    exact ⟨resultNames_error hkinds, rfl⟩
  simp only [hkinds, visit_bind_error] at h
  rcases h with h | ⟨names, s1, hnames, h⟩
  · cases h
  obtain ⟨-, -, scopes, rfl⟩ := allocateNames_ok hnames
  rcases hoperand : x.argsOf? checkFunc with _ | (_ | ⟨operand, _ | ⟨_, _⟩⟩)
  · rw [hoperand] at h
    obtain ⟨rfl, rfl⟩ := visit_throw_error h
    exact ⟨nofun, rfl⟩
  · rw [hoperand] at h
    obtain ⟨rfl, rfl⟩ := visit_throw_error h
    exact ⟨nofun, rfl⟩
  rotate_left
  · rw [hoperand] at h
    obtain ⟨rfl, rfl⟩ := visit_throw_error h
    exact ⟨nofun, rfl⟩
  rw [hoperand] at h
  simp only [visit_bind_error] at h
  rcases h with h | ⟨_, _, _, h⟩
  · obtain ⟨cause, rfl⟩ := placeResults_error h
    exact ⟨cause, rfl⟩
  · -- what follows the placing of the results cannot fail
    rcases h with h | ⟨_, _, _, h | ⟨_, _, _, h | ⟨_, _, _, h | ⟨_, _, _, h⟩⟩⟩⟩ <;> cases h

theorem size_erase_of_get? {β : Type} {m : TreeMap NodeId β} {id : NodeId} {b : β}
    (h : m.get? id = some b) : (m.erase id).size + 1 = m.size := by
  have contains : m.contains id = true := by
    rw [TreeMap.contains_eq_isSome_getElem?, ← TreeMap.get?_eq_getElem?, h]
    rfl
  have nonempty := TreeMap.isEmpty_eq_false_of_contains contains
  rw [TreeMap.isEmpty_eq_size_eq_zero, beq_eq_false_iff_ne] at nonempty
  rw [TreeMap.size_erase, if_pos contains]
  omega

theorem exitExpr_error {position : Position} (h : (expander info file).exitExpr x position s = (.error e, s')) :
    ¬ e.cause.IsStagnation ∧ s'.shared.collected.pending + 1 = s.shared.collected.pending := by
  simp only [expander, visit_bind_error, visit_get] at h
  rcases h with h | ⟨_, _, ⟨rfl, rfl⟩, h⟩
  · cases h
  rename_i s
  rcases hb : s.shared.collected.checks.get? x.info.id with _ | b
  · simp only [hb] at h
    cases h
  simp only [hb] at h
  split at h
  · cases h
  rcases hty : info.typeOf x.info.id with _ | ty
  · simp only [hty] at h
    cases h
  simp only [hty, visit_bind_error, visit_set] at h
  rcases h with h | ⟨_, _, rfl, h⟩
  · cases h
  obtain ⟨cause, checks⟩ := expandCheck_error h
  refine ⟨cause, ?_⟩
  unfold Collected.pending
  rw [checks]
  exact size_erase_of_get? hb

/-- How a part of a pass uses up the pending checks. -/
structure Depletes (w w' : Walk Expanding Fault) : Prop where
  le : w'.state.shared.collected.pending ≤ w.state.shared.collected.pending
  expanded : w'.failure = none → w'.state.expanded + w'.state.shared.collected.pending
      = w.state.expanded + w.state.shared.collected.pending
  failed : w.failure.isSome → w' = w
  cause : ∀ e, w'.failure = some e → w.failure = some e ∨ ¬ e.cause.IsStagnation

theorem Depletes.refl (w : Walk Expanding Fault) : Depletes w w where
  le := .refl
  expanded _ := rfl
  failed _ := rfl
  cause _ h := .inl h

theorem Depletes.trans {w1 w2 w3 : Walk Expanding Fault} (h1 : Depletes w1 w2)
    (h2 : Depletes w2 w3) : Depletes w1 w3 where
  le := h2.le.trans h1.le
  expanded h := by
    have going : w2.failure = none := by
      rcases hw : w2.failure with _ | e
      · rfl
      · rw [h2.failed (by rw [hw]; rfl), hw] at h
        cases h
    rw [h2.expanded h, h1.expanded going]
  failed h := by
    obtain rfl := h1.failed h
    exact h2.failed h
  cause e h := by
    rcases h2.cause e h with h | h
    · exact h1.cause e h
    · exact .inr h

/-- A step that keeps the checks and the count of expansions. -/
theorem depletes_of_eq (h : s'.shared = s.shared) (h' : s'.expanded = s.expanded) : Depletes ⟨s, none⟩ ⟨s', none⟩ where
  le := by
    show s'.shared.collected.pending ≤ s.shared.collected.pending
    exact Nat.le_of_eq (by rw [h])
  expanded _ := by
    show s'.expanded + s'.shared.collected.pending = s.expanded + s.shared.collected.pending
    rw [h, h']
  failed := nofun
  cause := nofun

theorem depletes_of_answers {action : ExprAction} (h : Answers info file x slot s action s') :
    Depletes ⟨s, none⟩ ⟨s', none⟩ := by
  cases h with
  | keep => exact .refl _
  | wait => exact depletes_of_eq rfl rfl
  | expand pending _ _ _ _ _ collected _ expanded =>
    obtain ⟨scopes, hcollected⟩ := collected
    have size_erase : s'.shared.collected.pending + 1 = s.shared.collected.pending := by
      unfold Collected.pending
      rw [hcollected]
      exact size_erase_of_get? pending.1
    exact {
      le := by
        show s'.shared.collected.pending ≤ s.shared.collected.pending
        omega
      expanded := fun _ => by
        show s'.expanded + s'.shared.collected.pending = s.expanded + s.shared.collected.pending
        omega
      failed := nofun
      cause := nofun }

/-- A pass uses up the pending checks one by one, wherever it stands. -/
theorem closed_depletes (info : TypeInfo) (file : Nat) :
    Closed (expander info file) fun m => ∀ w, Depletes w (m w).2 := by
  refine closed_of_answers Depletes.refl Depletes.trans (fun _ _ => .refl _) (fun _ => .refl _)
    (fun _ _ => .refl _) (fun _ _ => .refl _) (fun _ _ => depletes_of_eq rfl rfl) ?_ ?_
  · rintro t ⟨shared, frames, expanded⟩
    cases frames <;> exact depletes_of_eq rfl rfl
  · intro x position s
    rcases h : (expander info file).exitExpr x position s with ⟨e | action, s'⟩
    · simp only [Walk.after, h]
      obtain ⟨cause, pending⟩ := exitExpr_error h
      refine ⟨?_, nofun, nofun, fun _ h => by cases h; exact .inr cause⟩
      dsimp only
      omega
    · simp only [Walk.after, h]
      exact depletes_of_answers (answers_of_exitExpr h)

theorem expandFile_depletes (info : TypeInfo) (file : Nat) (tree : File) (state : ExpandState) :
    let pass := expandFile info file tree state
    pass.state.collected.pending ≤ state.collected.pending ∧ (pass.fault = none →
        pass.expanded + pass.state.collected.pending = state.collected.pending) ∧
      ∀ e, pass.fault = some e → ¬ e.cause.IsStagnation := by
  have h := (closed_depletes info file).file tree ⟨{ shared := state }, none⟩
  unfold expandFile
  generalize walkFile (expander info file) tree ⟨{ shared := state }, none⟩ = result at h ⊢
  obtain ⟨tree, w⟩ := result
  refine ⟨h.le, fun going => ?_, fun e he => ?_⟩
  · have expanded := h.expanded going
    rw [Nat.zero_add] at expanded
    exact expanded
  · rcases h.cause e he with h | h
    · cases h
    · exact h

section Round

variable {index : Nat} {state : ExpandState} {file : SourceFile}
  {files : List SourceFile}

theorem expandFiles_plain (plain : file.isMarked = false) : expandFiles info index state (file :: files)
      = { expandFiles info (index + 1) state files with
          files := file :: (expandFiles info (index + 1) state files).files } := by
  simp only [expandFiles, plain]
  rfl

theorem expandFiles_marked (marked : file.isMarked = true)
    (going : (expandFile info index file.tree state).fault = none) :
    expandFiles info index state (file :: files) = let pass := expandFile info index file.tree state
      let round := expandFiles info (index + 1) pass.state files
      { round with
        files := { file with tree := pass.tree } :: round.files
        expanded := pass.expanded + round.expanded } := by
  simp only [expandFiles, marked, going]
  rfl

theorem expandFiles_failed {fault : Fault} (marked : file.isMarked = true)
    (failed : (expandFile info index file.tree state).fault = some fault) :
    expandFiles info index state (file :: files) = let pass := expandFile info index file.tree state
      ⟨{ file with tree := pass.tree } :: files, pass.state, pass.expanded,
        (({ file with tree := pass.tree } : SourceFile).site .expand).locate fault⟩ := by
  simp only [expandFiles, marked, failed]
  rfl

end Round

/-- A round uses up the pending checks as its passes do. -/
theorem expandFiles_depletes (info : TypeInfo) (index : Nat) (state : ExpandState) (files : List SourceFile) :
    let round := expandFiles info index state files
    round.state.collected.pending ≤ state.collected.pending ∧ (round.failure = none →
        round.expanded + round.state.collected.pending = state.collected.pending) ∧
      ∀ f, round.failure = some f → ¬ f.cause.IsStagnation := by
  induction files generalizing index state with
  | nil =>
    rw [expandFiles]
    exact ⟨.refl, fun _ => by rw [Nat.zero_add], fun _ h => nomatch h⟩
  | cons file files ih =>
    cases marked : file.isMarked with
    | false =>
      rw [expandFiles_plain marked]
      exact ih (index + 1) state
    | true =>
      obtain ⟨le, expanded, cause⟩ := expandFile_depletes info index file.tree state
      rcases hfault : (expandFile info index file.tree state).fault with _ | fault
      · rw [expandFiles_marked marked hfault]
        obtain ⟨ih_le, ih_expanded, ih_cause⟩ := ih (index + 1) (expandFile info index file.tree state).state
        refine ⟨ih_le.trans le, fun going => ?_, ih_cause⟩
        have h1 := expanded hfault
        have h2 := ih_expanded going
        show _ + _ + _ = _
        rw [Nat.add_assoc, h2, h1]
      · rw [expandFiles_failed marked hfault]
        refine ⟨le, nofun, fun f hf => ?_⟩
        cases hf
        exact cause fault hfault

/-! ## The rounds of a run -/

/-- What a round starts from: the package, what is known of its types, and the
checks that are pending. -/
structure Iteration where
  package : Package
  info : TypeInfo
  collected : Collected
  spliced : TreeSet NodeId

namespace Iteration

def pending (it : Iteration) : Nat := it.collected.pending

def round (it : Iteration) : Round :=
  expandFiles it.info 0 ⟨it.collected, it.spliced, it.package.nextId⟩ it.package.files

/-- The package after the round. -/
def result (it : Iteration) : Package := { it.package with files := it.round.files, nextId := it.round.state.nextId }

/-- What an observer sees after the round. -/
def snapshot (it : Iteration) (iteration : Nat) : Snapshot where
  iteration := iteration
  expanded := it.round.expanded
  pending := it.round.state.collected.pending
  files := it.result.texts

end Iteration

/-- The rounds from a collected package on, if nothing ever stopped them: each
starts where the one before it ended, with another answer of `typing`. -/
def iterations (typing : Typing) (collected : Collected) (p : Package) : Nat → Iteration
  | 0 => ⟨p, typing 0 p, collected, ∅⟩
  | k + 1 =>
    let it := iterations typing collected p k
    ⟨it.result, typing (k + 1) it.result, it.round.state.collected, it.round.state.spliced⟩

/-- The run that starts with round `k` ends before round `n`. There are three
ways to end, and none of them is that the rounds run out. -/
inductive Ends (it : Nat → Iteration) (checks handlers : Nat) : Nat → Nat → Run → Prop
  /-- Nothing is pending. -/
  | done {k : Nat} (none_left : (it k).pending = 0) :
    Ends it checks handlers k k ⟨(it k).package, [], .ok ⟨checks, handlers, k⟩⟩
  | failed {k : Nat} {f : Failure} (left : 0 < (it k).pending) (failure : (it k).round.failure = some f) :
    Ends it checks handlers k (k + 1) ⟨(it k).result, [], .error f⟩
  /-- Checks are pending, and the round has expanded none of them. -/
  | stuck {k : Nat} (left : 0 < (it k).pending) (going : (it k).round.failure = none)
      (still : (it k).round.state.collected.pending = (it k).pending) :
    Ends it checks handlers k (k + 1) ⟨(it k).result, [(it k).snapshot (k + 1)],
      .error (stagnation (it k).result (it k).round.state.collected (it k).info)⟩
  | next {k n : Nat} {run : Run} (left : 0 < (it k).pending) (going : (it k).round.failure = none)
      (falls : (it k).round.state.collected.pending < (it k).pending)
      (rest : Ends it checks handlers (k + 1) n run) :
    Ends it checks handlers k n
      { run with snapshots := (it k).snapshot (k + 1) :: run.snapshots }

namespace Iteration

variable (it : Iteration)

theorem pending_le : it.round.state.collected.pending ≤ it.pending :=
  (expandFiles_depletes it.info 0 _ it.package.files).1

theorem expanded_eq (going : it.round.failure = none) :
    it.round.expanded + it.round.state.collected.pending = it.pending :=
  (expandFiles_depletes it.info 0 _ it.package.files).2.1 going

theorem cause_of_failure {f : Failure} (failed : it.round.failure = some f) : ¬ f.cause.IsStagnation :=
  (expandFiles_depletes it.info 0 _ it.package.files).2.2 f failed

end Iteration

theorem stagnation_cause (p : Package) (collected : Collected) (info : TypeInfo) :
    (stagnation p collected info).cause.IsStagnation := by
  refine ⟨collected.pending, ?_⟩
  simp only [stagnation]
  split <;> rfl

section Run

variable {typing : Typing} {collected : Collected} {p : Package} {checks handlers k n : Nat}
  {run : Run}

/-- From any round on, a run comes to an end. -/
theorem exists_ends (typing : Typing) (collected : Collected) (p : Package) (checks handlers k : Nat) :
    ∃ n run, Ends (iterations typing collected p) checks handlers k n run := by
  -- the pending checks become fewer until there are none
  induction h : (iterations typing collected p k).pending using Nat.strongRecOn generalizing k with
  | ind pending ih =>
    rcases Nat.eq_zero_or_pos (iterations typing collected p k).pending with none_left | left
    · exact ⟨k, _, .done none_left⟩
    rcases failure : (iterations typing collected p k).round.failure with _ | f
    · rcases Nat.eq_or_lt_of_le (iterations typing collected p k).pending_le with still | falls
      · exact ⟨k + 1, _, .stuck left failure still⟩
      · obtain ⟨n, run, rest⟩ := ih _ (h ▸ falls) (k + 1) rfl
        exact ⟨n, _, .next left failure falls rest⟩
    · exact ⟨k + 1, _, .failed left failure⟩

theorem iterations_info (typing : Typing) (collected : Collected) (p : Package) (k : Nat) :
    (iterations typing collected p k).info = typing k (iterations typing collected p k).package := by
  cases k <;> rfl

theorem rounds_done {it : Iteration} (none_left : it.pending = 0) (snapshots : List Snapshot) (fuel : Nat) :
    rounds typing checks handlers it.collected it.spliced k it.package snapshots fuel
      = ⟨it.package, snapshots, .ok ⟨checks, handlers, k⟩⟩ := by
  have none_left : (it.collected.pending == 0) = true := beq_iff_eq.mpr none_left
  cases fuel <;> simp only [rounds, none_left, if_true]

theorem rounds_step {it : Iteration} (info : it.info = typing k it.package)
    (left : 0 < it.pending) (snapshots : List Snapshot) (fuel : Nat) :
    rounds typing checks handlers it.collected it.spliced k it.package snapshots (fuel + 1) =
      match it.round.failure with
      | some f => ⟨it.result, snapshots, .error f⟩
      | none =>
        if it.round.state.collected.pending != 0 && it.round.state.collected.pending == it.pending then
          ⟨it.result, snapshots ++ [it.snapshot (k + 1)],
            .error (stagnation it.result it.round.state.collected it.info)⟩
        else
          rounds typing checks handlers it.round.state.collected it.round.state.spliced (k + 1)
            it.result (snapshots ++ [it.snapshot (k + 1)]) fuel := by
  have left : (it.collected.pending == 0) = false := by
    rw [beq_eq_false_iff_ne]
    exact Nat.ne_of_gt left
  rcases it with ⟨package, _, collected, spliced⟩
  obtain rfl : _ = typing k package := info
  rw [rounds, left]
  rfl

/-- The rounds are carried out as described, if as many are allowed as checks
are pending. -/
theorem rounds_eq (h : Ends (iterations typing collected p) checks handlers k n run) {fuel : Nat}
    (enough : (iterations typing collected p k).pending ≤ fuel) (snapshots : List Snapshot) :
    rounds typing checks handlers (iterations typing collected p k).collected
        (iterations typing collected p k).spliced k (iterations typing collected p k).package
        snapshots fuel
      = { run with snapshots := snapshots ++ run.snapshots } := by
  induction h generalizing fuel snapshots with
  | done none_left => rw [rounds_done none_left, append_nil]
  | failed left failure =>
    obtain ⟨fuel, rfl⟩ : ∃ m, fuel = m + 1 := ⟨fuel - 1, by omega⟩
    rw [rounds_step (iterations_info ..) left, failure, append_nil]
  | stuck left going still =>
    obtain ⟨fuel, rfl⟩ : ∃ m, fuel = m + 1 := ⟨fuel - 1, by omega⟩
    rw [rounds_step (iterations_info ..) left, going, still]
    have : ((iterations typing collected p _).pending != 0) = true := bne_iff_ne.mpr (Nat.ne_of_gt left)
    simp only [this, BEq.rfl, Bool.and_self, if_true]
  | @next k n run left going falls rest ih =>
    obtain ⟨fuel, rfl⟩ : ∃ m, fuel = m + 1 := ⟨fuel - 1, by omega⟩
    have unequal : (_ == (iterations typing collected p _).pending) = false :=
      beq_eq_false_iff_ne.mpr (Nat.ne_of_lt falls)
    rw [rounds_step (iterations_info ..) left, going]
    simp only [unequal, Bool.and_false]
    have rest := ih (Nat.le_of_lt_succ (falls.trans_le enough))
      (snapshots ++ [(iterations typing collected p k).snapshot (k + 1)])
    rw [append_assoc, singleton_append] at rest
    exact rest

/-! ## What a run can look like -/

theorem Ends.le (h : Ends (iterations typing collected p) checks handlers k n run) :
    n ≤ k + (iterations typing collected p k).pending := by
  induction h with
  | done => omega
  | failed left | stuck left => omega
  | next left going falls rest ih =>
    have ih : _ ≤ _ + 1 + (iterations typing collected p _).round.state.collected.pending := ih
    omega

theorem Ends.start_le (h : Ends (iterations typing collected p) checks handlers k n run) : k ≤ n := by
  induction h <;> omega

/-- Every round but the last goes on to the next. -/
theorem Ends.falls (h : Ends (iterations typing collected p) checks handlers k n run) :
    ∀ j, k ≤ j → j < n → 0 < (iterations typing collected p j).pending ∧
      (j + 1 < n → (iterations typing collected p j).round.failure = none ∧
        (iterations typing collected p (j + 1)).pending < (iterations typing collected p j).pending) := by
  induction h with
  | done =>
    intro j _ _
    omega
  | @failed k _ left | @stuck k left =>
    intro j _ _
    obtain rfl : j = k := by omega
    exact ⟨left, fun _ => by omega⟩
  | @next k _ _ left going falls rest ih =>
    intro j hk hj
    rcases Nat.eq_or_lt_of_le hk with rfl | hk
    · exact ⟨left, fun _ => ⟨going, falls⟩⟩
    · exact ih j hk hj

/-- Every round that does not fail is shown. -/
theorem Ends.snapshots (h : Ends (iterations typing collected p) checks handlers k n run) :
    run.snapshots = (range' k (n - k)).filterMap fun j =>
      if (iterations typing collected p j).round.failure.isNone then
        some ((iterations typing collected p j).snapshot (j + 1))
      else none := by
  induction h with
  | done =>
    rw [Nat.sub_self]
    rfl
  | @failed k f left failure =>
    rw [Nat.add_sub_cancel_left, range'_one, filterMap_cons, failure]
    rfl
  | @stuck k left going still =>
    rw [Nat.add_sub_cancel_left, range'_one, filterMap_cons, going]
    rfl
  | @next k n run left going falls rest ih =>
    have hk := rest.start_le
    rw [show n - k = n - (k + 1) + 1 by omega, range'_succ, filterMap_cons, going, ← ih]
    rfl

/-- How a run ends. -/
theorem Ends.outcome (h : Ends (iterations typing collected p) checks handlers k n run) :
    ((∀ j, k ≤ j → j < n → (iterations typing collected p j).round.failure = none) ∧
      (iterations typing collected p n).pending = 0 ∧ run.outcome = .ok ⟨checks, handlers, n⟩) ∨
    (∃ j f, k ≤ j ∧ j + 1 = n ∧ (iterations typing collected p j).round.failure = some f ∧ run.outcome = .error f) ∨
    (∃ j, k ≤ j ∧ j + 1 = n ∧ (iterations typing collected p j).round.failure = none ∧
      (iterations typing collected p n).pending = (iterations typing collected p j).pending ∧
      0 < (iterations typing collected p j).pending ∧
      run.outcome = .error (stagnation (iterations typing collected p j).result
        (iterations typing collected p j).round.state.collected
        (iterations typing collected p j).info)) := by
  induction h with
  | @done k none_left =>
    refine .inl ⟨fun j _ _ => by omega, none_left, rfl⟩
  | @failed k f left failure => exact .inr (.inl ⟨k, f, Nat.le_refl k, rfl, failure, rfl⟩)
  | @stuck k left going still =>
    exact .inr (.inr ⟨k, Nat.le_refl k, rfl, going, still, left, rfl⟩)
  | @next k n run left going falls rest ih =>
    rcases ih with ⟨all, none_left, outcome⟩ | ⟨j, f, hj, h⟩ | ⟨j, hj, h⟩
    · refine .inl ⟨fun j hk hj => ?_, none_left, outcome⟩
      rcases Nat.eq_or_lt_of_le hk with rfl | hk
      · exact going
      · exact all j hk hj
    · exact .inr (.inl ⟨j, f, Nat.le_of_succ_le hj, h⟩)
    · exact .inr (.inr ⟨j, Nat.le_of_succ_le hj, h⟩)

theorem Ends.package (h : Ends (iterations typing collected p) checks handlers k n run) :
    run.package = (iterations typing collected p n).package := by
  induction h with
  | done | failed | stuck => rfl
  | next left going falls rest ih => exact ih

/-! ## What a run asks for -/

/-- Answers that are the same for the rounds before `n` make them the same. -/
theorem iterations_congr {typing' : Typing} (same : ∀ j < n, typing' j (iterations typing collected p j).package
      = (iterations typing collected p j).info) :
    ∀ j < n, iterations typing' collected p j = iterations typing collected p j := by
  intro j hj
  induction j with
  | zero =>
    have := same 0 hj
    simp only [iterations] at this ⊢
    rw [this]
  | succ j ih =>
    have := same (j + 1) hj
    simp only [iterations] at this ⊢
    rw [ih (by omega), this]

/-- A run asks for types once a round, and for nothing else. -/
theorem Ends.congr {typing' : Typing} (h : Ends (iterations typing collected p) checks handlers k n run)
    (same : ∀ j < n, typing' j (iterations typing collected p j).package = (iterations typing collected p j).info) :
    Ends (iterations typing' collected p) checks handlers k n run := by
  have eq := iterations_congr same
  induction h with
  | @done k none_left =>
    have package : (iterations typing' collected p k).package = (iterations typing collected p k).package := by
      cases k with
      | zero => rfl
      | succ k => simp only [iterations, eq k (Nat.lt_succ_self k)]
    have pending : (iterations typing' collected p k).pending = (iterations typing collected p k).pending := by
      cases k with
      | zero => rfl
      | succ k => simp only [Iteration.pending, iterations, eq k (Nat.lt_succ_self k)]
    rw [← package]
    exact .done (pending.trans none_left)
  | @failed k f left failure =>
    rw [← eq k (Nat.lt_succ_self k)] at left failure ⊢
    exact .failed left failure
  | @stuck k left going still =>
    rw [← eq k (Nat.lt_succ_self k)] at left going still ⊢
    exact .stuck left going still
  | @next k n run left going falls rest ih =>
    have hk : iterations typing' collected p k = iterations typing collected p k := eq k rest.start_le
    rw [← hk] at left going falls ⊢
    exact .next left going falls (ih same eq)

/-- `run` has gone through the rounds before `n`, and has ended as it had
to. -/
structure Progress (typing : Typing) (collected : Collected) (p : Package) (n : Nat) (run : Run) : Prop where
  /-- No round starts with nothing to do. -/
  pending_pos : ∀ k < n, 0 < (iterations typing collected p k).pending
  pending_le : ∀ k < n, (iterations typing collected p (k + 1)).pending ≤ (iterations typing collected p k).pending
  /-- Every round but the last succeeds and leaves fewer checks. -/
  pending_lt : ∀ k, k + 1 < n → (iterations typing collected p k).round.failure = none ∧
    (iterations typing collected p (k + 1)).pending < (iterations typing collected p k).pending
  /-- A round expands as many checks as it takes off the pending ones. -/
  expanded_eq : ∀ k < n, (iterations typing collected p k).round.failure = none →
    (iterations typing collected p k).round.expanded
      = (iterations typing collected p k).pending - (iterations typing collected p (k + 1)).pending
  /-- Every round that does not fail is shown. -/
  snapshots_eq : run.snapshots = (List.range n).filterMap fun k =>
    if (iterations typing collected p k).round.failure.isNone then
      some ((iterations typing collected p k).snapshot (k + 1))
    else none
  package_eq : run.package = (iterations typing collected p n).package
  ok_iff : (∃ summary, run.outcome = .ok summary) ↔ (∀ k < n, (iterations typing collected p k).round.failure = none) ∧
      (iterations typing collected p n).pending = 0
  summary_eq : ∀ summary, run.outcome = .ok summary → summary = ⟨collected.pending, collected.handlers.length, n⟩
  undefined_iff : (∃ f, run.outcome = .error f ∧ f.cause.IsStagnation) ↔
    ∃ k, k + 1 = n ∧ (iterations typing collected p k).round.failure = none ∧
      (iterations typing collected p k).round.expanded = 0 ∧
      0 < (iterations typing collected p n).pending
  /-- Any other failure is that of the last round. -/
  failure_eq : ∀ f, run.outcome = .error f → ¬ f.cause.IsStagnation →
    ∃ k, k + 1 = n ∧ (iterations typing collected p k).round.failure = some f

theorem Ends.progress (h : Ends (iterations typing collected p) collected.pending collected.handlers.length 0 n run) :
    Progress typing collected p n run where
  pending_pos k hk := (h.falls k (Nat.zero_le k) hk).1
  pending_le k _ := (iterations typing collected p k).pending_le
  pending_lt k hk := (h.falls k (Nat.zero_le k) (Nat.lt_of_succ_lt hk)).2 hk
  expanded_eq k _ going := by
    have := (iterations typing collected p k).expanded_eq going
    show _ = _ - (iterations typing collected p k).round.state.collected.pending
    omega
  snapshots_eq := by
    rw [h.snapshots, Nat.sub_zero, range_eq_range']
  package_eq := h.package
  ok_iff := by
    rcases h.outcome with ⟨all, none_left, outcome⟩ | ⟨j, f, -, hj, failure, outcome⟩ |
      ⟨j, -, hj, -, still, left, outcome⟩
    · simp only [outcome, none_left, and_true]
      exact ⟨fun _ k => all k (Nat.zero_le k), fun _ => ⟨_, rfl⟩⟩
    · simp only [outcome]
      refine ⟨(fun ⟨_, h⟩ => nomatch h), fun ⟨all, _⟩ => ?_⟩
      rw [all j (by omega)] at failure
      cases failure
    · simp only [outcome]
      exact ⟨(fun ⟨_, h⟩ => nomatch h), fun ⟨_, none_left⟩ => by omega⟩
  summary_eq summary hs := by
    rcases h.outcome with ⟨-, -, outcome⟩ | ⟨_, _, -, -, -, outcome⟩ | ⟨_, -, -, -, -, -, outcome⟩ <;>
      rw [outcome] at hs <;> cases hs
    rfl
  undefined_iff := by
    rcases h.outcome with ⟨all, none_left, outcome⟩ | ⟨j, f, -, hj, failure, outcome⟩ |
      ⟨j, -, hj, going, still, left, outcome⟩
    · simp only [outcome]
      exact ⟨(fun ⟨_, h, _⟩ => nomatch h), fun ⟨_, _, _, _, left⟩ => by omega⟩
    · have cause := (iterations typing collected p j).cause_of_failure failure
      simp only [outcome]
      refine ⟨fun ⟨f', hf', stagnation⟩ => ?_, fun ⟨k, hk, going, _⟩ => ?_⟩
      · cases hf'
        exact absurd stagnation cause
      · obtain rfl : k = j := by omega
        rw [failure] at going
        cases going
    · simp only [outcome]
      have expanded := (iterations typing collected p j).expanded_eq going
      subst hj
      have still : (iterations typing collected p j).round.state.collected.pending
        = (iterations typing collected p j).pending := still
      have left : 0 < (iterations typing collected p (j + 1)).pending := by
        rw [← still] at left
        exact left
      exact ⟨fun _ => ⟨j, rfl, going, by omega, left⟩, fun _ => ⟨_, rfl, stagnation_cause _ _ _⟩⟩
  failure_eq f hf cause := by
    rcases h.outcome with ⟨-, -, outcome⟩ | ⟨j, f', -, hj, failure, outcome⟩ |
      ⟨_, -, -, -, -, -, outcome⟩ <;> rw [outcome] at hf <;> cases hf
    · exact ⟨j, hj, failure⟩
    · exact absurd (stagnation_cause _ _ _) cause

end Run

variable {p q : Package} {collected : Collected}

theorem expand_eq (h : p.collect = .ok (q, collected)) (typing : Typing) :
    p.expand typing = rounds typing collected.pending collected.handlers.length collected ∅ 0 q []
      (collected.pending + 1) := by
  unfold Package.expand
  rw [h]

/-- The rounds that a run of the package goes through. -/
theorem exists_ends_expand (h : p.collect = .ok (q, collected)) (typing : Typing) :
    ∃ n, Ends (iterations typing collected q) collected.pending collected.handlers.length 0 n (p.expand typing) := by
  obtain ⟨n, run, ends⟩ := exists_ends typing collected q collected.pending collected.handlers.length 0
  have expand : p.expand typing = run := by
    rw [expand_eq h]
    exact rounds_eq ends (Nat.le_succ _) []
  rw [expand]
  exact ⟨n, ends⟩

/-- **A run makes progress or ends.** After a successful collection a run goes
through at most as many rounds as there are checks, whatever the types are, and
asks for types once in each. More rounds allowed make no difference. -/
theorem expand_progress (h : p.collect = .ok (q, collected)) (typing : Typing) : ∃ n ≤ collected.pending,
      Progress typing collected q n (p.expand typing) ∧
      (∀ fuel ≥ collected.pending, rounds typing collected.pending collected.handlers.length collected ∅ 0 q [] fuel
          = p.expand typing) ∧
      ∀ typing' : Typing, (∀ k < n, typing' k (iterations typing collected q k).package
          = (iterations typing collected q k).info) → p.expand typing' = p.expand typing := by
  obtain ⟨n, ends⟩ := exists_ends_expand h typing
  have bound : n ≤ collected.pending := by
    have := ends.le
    rw [Nat.zero_add] at this
    exact this
  refine ⟨n, bound, ends.progress, fun fuel enough => rounds_eq ends enough [], fun typing' same => ?_⟩
  rw [expand_eq h typing']
  exact rounds_eq (ends.congr same) (Nat.le_succ _) []

/-- The package and what is collected from it, if the inputs are fine. -/
def collectInputs (inputs : List SourceInput) : Option (Package × Package × Collected) :=
  match Package.assemble inputs with
  | .error _ => none
  | .ok p =>
    match p.collect with
    | .error _ => none
    | .ok (q, collected) => some (p, q, collected)

theorem collect_of_collectInputs {inputs : List SourceInput} (h : collectInputs inputs = some (p, q, collected)) :
    Package.assemble inputs = .ok p ∧ p.collect = .ok (q, collected) := by
  unfold collectInputs at h
  split at h
  · cases h
  · rename_i p' hp
    split at h
    · cases h
    · rename_i q' collected' hq
      cases h
      exact ⟨hp, hq⟩

/-- A source with two checks, of which the second needs the type of the
first. -/
def dependentChecks : SourceInput :=
  ⟨"f.go2", "package main\nfunc f() \x7b\n\tx := check g()\n\tcheck x.h()\n\x7d\n", true⟩

theorem expand_progress_dependentChecks : ∃ p q collected, Package.assemble [dependentChecks] = .ok p ∧
      p.collect = .ok (q, collected) ∧ collected.pending = 2 ∧
      ∃ n ≤ 2, Progress (fun _ _ => {}) collected q n (p.expand fun _ _ => {}) := by
  have two : (collectInputs [dependentChecks]).map (·.2.2.pending) = some 2 := by decide +kernel
  obtain ⟨⟨p, q, collected⟩, h, pending⟩ := Option.map_eq_some_iff.mp two
  obtain ⟨hp, hq⟩ := collect_of_collectInputs h
  obtain ⟨n, le, progress, -⟩ := expand_progress hq fun _ _ => {}
  exact ⟨p, q, collected, hp, hq, pending, n, by rw [← pending]; exact le, progress⟩

end CheckHandle
