import CheckHandle.Proofs.Assembly
import CheckHandle.Proofs.Collecting

/-!
# Markers and nodes

Collection ties the markers of a file to its nodes, one marker to one node: no
two nodes share a marker, and at the end every marker must have been taken.
-/

namespace CheckHandle

open Std List

/-! ## Every marker is tied -/

section Markers

variable {markers : Markers}

theorem unclaimed?_eq_none {s : Collecting} (h : unclaimed? markers s = none) :
    (∀ o ∈ markers.checks, o ∈ s.boundChecks) ∧ ∀ o name, markers.handles.get? o = some name → o ∈ s.boundHandles := by
  unfold unclaimed? at h
  rw [Option.or_eq_none_iff, Option.map_eq_none_iff, Option.map_eq_none_iff, find?_eq_none, find?_eq_none] at h
  refine ⟨fun o ho => ?_, fun o name hname => ?_⟩
  · have := h.1 o (TreeSet.mem_toList.mpr ho)
    simpa using this
  · have hmem : (o, name) ∈ markers.handles.toList := TreeMap.mem_toList_iff_getElem?_eq_some.mpr hname
    have := h.2 o (mem_map.mpr ⟨_, hmem, rfl⟩)
    simpa using this

/-- Handlers from statements in the order of the text, one for each marker,
follow the markers. -/
theorem handles_eq {taken : List Stmt} {new : List Handler} (turns : List.Forall₂ markers.Turns taken new)
    (ascending : (taken.map fun t => t.info.span.start).Pairwise (· < ·))
    (all : ∀ o name, markers.handles.get? o = some name → ∃ t ∈ taken, t.info.span.start = o) :
    new.map (fun h => (h.span.start, h.errName)) = markers.handles.toList := by
  have same : taken.map (fun t => t.info.span.start) = new.map (fun h => h.span.start) ∧
      ∀ h ∈ new, markers.handles.get? h.span.start = some h.errName := by
    clear ascending all
    induction turns with
    | nil => exact ⟨rfl, fun h hh => nomatch hh⟩
    | cons turn _ ih =>
      refine ⟨by rw [map_cons, map_cons, ih.1, turn.2.2], fun h hh => ?_⟩
      rcases mem_cons.mp hh with rfl | hh
      · rw [turn.2.2]
        exact turn.1
      · exact ih.2 h hh
  obtain ⟨starts_eq, named⟩ := same
  let byOffset : Nat × String → Nat × String → Prop := fun a b => a.1 < b.1
  have left : (new.map fun h => (h.span.start, h.errName)).Pairwise byOffset := by
    rw [starts_eq, pairwise_map] at ascending
    exact pairwise_map.mpr ascending
  have right : markers.handles.toList.Pairwise byOffset :=
    TreeMap.ordered_keys_toList.imp fun h => Nat.compare_eq_lt.mp h
  have distinct : ∀ {l : List (Nat × String)}, l.Pairwise byOffset → l.Nodup := by
    intro l h
    refine h.imp fun {a b} hlt heq => ?_
    rw [heq] at hlt
    exact Nat.lt_irrefl _ hlt
  refine List.Perm.eq_of_pairwise (fun a b _ _ hab hba => absurd hab (Nat.lt_asymm hba)) left right
    ((perm_ext_iff_of_nodup (distinct left) (distinct right)).mpr fun ⟨o, name⟩ => ?_)
  rw [TreeMap.mem_toList_iff_getElem?_eq_some, mem_map]
  constructor
  · rintro ⟨h, hh, heq⟩
    cases heq
    exact named h hh
  · intro hname
    obtain ⟨t, ht, hstart⟩ := all o name hname
    have hmem : o ∈ new.map fun h => h.span.start := starts_eq ▸ mem_map.mpr ⟨t, ht, hstart⟩
    obtain ⟨h, hh, rfl⟩ := mem_map.mp hmem
    have := named h hh
    rw [TreeMap.get?_eq_getElem?, hname] at this
    exact ⟨h, hh, by rw [Option.some.inj this]⟩

end Markers

/-- The starts of the statements that become handlers, in the order of the
text. -/
theorem Tied.ascending {markers : Markers} {file : Nat} {occurs : NodeId → Nat} {ts : List Term}
    {after : List Term} {inside : List Statement} {level : NodeId → Prop} {s s' : Collecting}
    {added : List CheckBinding} {taken : List Stmt} {hi : Nat}
    (h : Tied markers file occurs (walkedAll ts) after inside level s s' added taken)
    (order : Ascends 0 hi (starts ts)) :
    (taken.map fun t => t.info.span.start).Pairwise (· < ·) := by
  have sublist : (taken.map fun t => t.info.span.start).Sublist (starts ts) := by
    have := h.order.map Statement.start
    rwa [map_map] at this
  exact ((order.pairwise.sublist sublist).and h.handlesApart).imp fun h => Nat.lt_of_le_of_ne h.1 h.2

/-! ## Files -/

/-- The markers of a file and what collection makes of them: the checks
`added`, and the statements `taken`, which become the handlers `new`. -/
structure Bound (markers : Markers) (file : Nat) (tree tree' : File) (out out' : Collected)
    (added : List CheckBinding) (taken : List Stmt) (new : List Handler) : Prop where
  /-- The checks that are added, and no others, come to those found before. -/
  checks : ∀ i, out'.checks.get? i = (added.find? fun b => b.id == i).or (out.checks.get? i)
  ids : (added.map CheckBinding.id).Nodup
  injective : (added.map fun b => b.span.start).Nodup
  onto : ∀ o, o ∈ markers.checks ↔ ∃ b ∈ added, b.span.start = o
  calls : ∀ b ∈ added, b.file = file ∧ b.IsCall (exprsIn [tree'.term])
  handlers : out'.handlers = out.handlers ++ new
  /-- One handler for each marker, by offset, with the error name given there. -/
  marked : new.map (fun h => (h.span.start, h.errName)) = markers.handles.toList
  turns : List.Forall₂ markers.Turns taken new
  standing : (taken.map Stmt.statement).Sublist (walkedAll [tree.term])
  tree : tree'.term = tree.term.drop (takes taken)

/-- **Markers and nodes correspond.** If the markers of a file that has been
read are collected, then the offset of a check is a bijection from the checks
that are added to the markers of checks, and each is a call of the check function
with one argument. The handlers that are added follow the markers of handlers, and
the tree loses the statements that became handlers and nothing else. -/
theorem collectFile_bound {text : String} {n n' : NodeId} {tree : File}
    (parsed : parseFile text n = .ok (tree, n')) {markers : Markers} {file : Nat} {tree' : File}
    {out out' : Collected} (h : collectFile markers file tree out = .ok (tree', out')) :
    ∃ added taken new, Bound markers file tree tree' out out' added taken new := by
  obtain ⟨hi, order⟩ := parseFile_inOrder text parsed
  have distinct : ∀ i, countAll i [tree.term] ≤ 1 := parseFile_distinct parsed
  obtain ⟨s', hwalk, claimed, rfl⟩ := collectFile_walk h
  obtain ⟨added, taken, hdrop, tied⟩ := (follows_tied markers file).inFile tree hwalk distinct
  obtain ⟨new, handlers, turns⟩ := tied.handlers
  obtain ⟨checksBound, handlesBound⟩ := unclaimed?_eq_none claimed
  refine ⟨added, taken, new, ?_⟩
  exact {
    checks := tied.checks
    ids := nodup_iff_count_le_one.mpr fun i => by
      have := tied.once i
      have := distinct i
      omega
    injective := tied.apart
    onto := fun o => by
      refine ⟨fun ho => ?_, ?_⟩
      · simpa using (tied.boundChecks o).mp (checksBound o ho)
      · rintro ⟨b, hb, rfl⟩
        exact (tied.calls b hb).2.1
    calls := fun b hb => ⟨(tied.calls b hb).1, (tied.calls b hb).2.2⟩
    handlers
    marked := handles_eq turns (tied.ascending order) fun o name hname => by
      simpa using (tied.boundHandles o).mp (handlesBound o name hname)
    turns
    standing := tied.order
    tree := by simpa [dropAll] using hdrop }

/-- A check in the operand of another, and a handler before each of two checks. -/
def nestedChecks : String := "package main\nfunc f() error \x7b\nhandle err \x7b return err \x7d\ncheck g(check h())\n"
    ++ "handle e \x7b return e \x7d\nx := check k()\nreturn nil\n\x7d\n"

theorem collectFile_bound_nestedChecks :
    ∃ lowered tree n' tree' out' added taken new, lower nestedChecks = .ok lowered ∧
      parseFile lowered.text 0 = .ok (tree, n') ∧
      collectFile lowered.markers 0 tree {} = .ok (tree', out') ∧
      lowered.markers.checks.size = 3 ∧ lowered.markers.handles.size = 2 ∧
      Bound lowered.markers 0 tree tree' {} out' added taken new := by
  have run : (collectText nestedChecks).map (fun (lowered, _) =>
      (lowered.markers.checks.size, lowered.markers.handles.size)) = some (3, 2) := by
    decide +kernel
  obtain ⟨⟨lowered, tree, tree', out'⟩, h, sizes⟩ := Option.map_eq_some_iff.mp run
  obtain ⟨n', hlower, hparse, hcollect⟩ := collectFile_of_collectText h
  obtain ⟨added, taken, new, bound⟩ := collectFile_bound hparse hcollect
  exact ⟨lowered, tree, n', tree', out', added, taken, new, hlower, hparse, hcollect,
    (Prod.mk.inj sizes).1, (Prod.mk.inj sizes).2, bound⟩

end CheckHandle
