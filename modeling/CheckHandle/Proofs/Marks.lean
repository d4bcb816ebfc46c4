import CheckHandle.Proofs.Written

/-!
# Where the lowering sets its markers

A marker is the offset of a text that the lowering has placed. So at every
offset that the lowering notes, the lowered text reads as the marker does.
-/

namespace CheckHandle

open Std Text List

variable {e : Edit} {k : MarkerKind} {o : Nat} {pl : Placement} {s : Lowering} {source : String} {l : Lowered}

/-- The text that the lowering places for a marker. -/
def MarkerKind.text : MarkerKind → String
  | .check => checkFunc ++ "("
  | .handle => "if " ++ handleFlag

def Marker.kind : Marker → MarkerKind
  | .check => .check
  | .handle _ => .handle

/-- There is a marker of this kind at this offset. -/
def Markers.At (markers : Markers) : MarkerKind → Nat → Prop
  | .check, o => o ∈ markers.checks
  | .handle, o => o ∈ markers.handles

namespace Lowering

variable {s' : Lowering} {t : Token} {next : Option Token}

/-- An edit that places a marker has the text of the marker. -/
def Fitting (s : Lowering) : Prop := ∀ p ∈ s.noted, p.1.replacement = p.2.kind.text

theorem Steps.fitting (hs : s.Fitting) (h : s.Steps t next s') : s'.Fitting := by
  have more : ∀ {e : Edit} {m : Marker}, s'.noted = s.noted ++ [(e, m)] → e.replacement = m.kind.text → s'.Fitting := by
    intro e m noted fits p hp
    rw [noted] at hp
    rcases mem_append.mp hp with hp | hp
    · exact hs p hp
    · obtain rfl := mem_singleton.mp hp
      exact fits
  cases h with
  | check _ _ _ _ _ _ _ _ _ noted => exact more noted rfl
  | brace _ _ _ _ _ _ noted => exact more noted rfl
  | keep _ _ _ _ _ noted | error _ _ _ _ _ noted | handle _ _ _ _ _ _ _ noted | name _ _ _ _ _ noted =>
    unfold Fitting
    rwa [noted]

theorem run_fitting {ts : List Token} (hs : s.Fitting) (h : s.run ts = .ok s') : s'.Fitting := by
  induction ts generalizing s with
  | nil =>
    cases h
    exact hs
  | cons t ts ih =>
    obtain ⟨s1, hstep, hrun⟩ := run_cons h
    obtain ⟨-, -, -, steps⟩ := step_steps hstep
    exact ih (steps.fitting hs) hrun

theorem mem_noted {marker : Marker} : (e, marker) ∈ s.noted ↔ (e, some marker) ∈ s.edits.reverse := by
  simp only [noted, mem_filterMap, Option.map_eq_some_iff]
  grind

end Lowering

/-! ## Markers and placements -/

theorem Markers.at_ofPlacements {marks : List (Option Marker × Placement)} : (Markers.ofPlacements marks).At k o ↔
      ∃ marker pl, (some marker, pl) ∈ marks ∧ marker.kind = k ∧ pl.loweredStart = o := by
  induction marks with
  | nil => cases k <;> simp [Markers.ofPlacements, Markers.At]
  | cons mark marks ih =>
    obtain ⟨marker, pl⟩ := mark
    have step : (Markers.ofPlacements ((marker, pl) :: marks)).At k o ↔
        (∃ m ∈ marker, m.kind = k ∧ pl.loweredStart = o) ∨ (Markers.ofPlacements marks).At k o := by
      rcases marker with _ | _ | name <;> cases k <;> simp [Markers.ofPlacements, Markers.At, Marker.kind]
    rw [step, ih]
    simp only [mem_cons, Prod.mk.injEq, or_and_right, exists_or]
    refine or_congr_left ⟨?_, ?_⟩
    · rintro ⟨m, rfl, hm⟩
      exact ⟨m, pl, ⟨rfl, rfl⟩, hm⟩
    · rintro ⟨m, _, ⟨rfl, rfl⟩, hm⟩
      exact ⟨m, rfl, hm⟩

/-- Where an edit is placed, its text is read. -/
theorem applyEditsFrom_placed {source : List Char} {es : List Edit} {cursor lowered : Nat}
    (h : (e, pl) ∈ es.zip (applyEditsFrom source cursor lowered es).2) :
    ∃ before after, (applyEditsFrom source cursor lowered es).1 =
      before ++ (e.replacement.toList ++ after) ∧ lowered + byteLength before = pl.loweredStart := by
  induction es generalizing cursor lowered with
  | nil => cases h
  | cons e1 es ih =>
    rw [applyEditsFrom_cons] at h ⊢
    rcases mem_cons.mp h with heq | h
    · cases heq
      exact ⟨_, _, append_assoc .., rfl⟩
    · obtain ⟨before, after, htext, hstart⟩ := ih h
      refine ⟨sliceBytes cursor e1.start source ++ e1.replacement.toList ++ before, after, ?_, ?_⟩
      · simp only [htext, append_assoc]
      · rw [← hstart]
        simp only [byteLength_append]
        omega

/-- The markers stand where the edits that place them do. -/
theorem Lowering.finish_at (h : s.finish source = .ok l) :
    l.markers.At k o ↔ ∃ e marker pl, ((e, some marker), pl) ∈ s.edits.reverse.zip l.offsets.placements ∧
      marker.kind = k ∧ pl.loweredStart = o := by
  obtain ⟨-, -, -, hmarkers⟩ := finish_ok h
  rw [hmarkers, Markers.at_ofPlacements, zip_map_left]
  constructor
  · rintro ⟨marker, pl, hmem, hk, ho⟩
    obtain ⟨⟨⟨e, m⟩, q⟩, placed, heq⟩ := mem_map.mp hmem
    cases heq
    exact ⟨e, marker, q, placed, hk, ho⟩
  · rintro ⟨e, marker, pl, hmem, hk, ho⟩
    exact ⟨marker, pl, mem_map.mpr ⟨_, hmem, rfl⟩, hk, ho⟩

theorem Lowering.written_placed {ps : List Placement} {p : Edit × Option Marker}
    (h : (p, pl) ∈ s.edits.reverse.zip ps) : (p.1, pl) ∈ s.written.zip ps := by
  rw [written, ← map_reverse, zip_map_left]
  exact mem_map.mpr ⟨_, h, rfl⟩

/-- **Markers stand where their texts are.** -/
theorem lower_marks (h : lower source = .ok l) (marked : l.markers.At k o) :
    ∃ before after, l.text.toList = before ++ (k.text.toList ++ after) ∧ byteLength before = o := by
  obtain ⟨-, final, hrun, hfinish⟩ := lower_ok h
  obtain ⟨-, -, happlied, -⟩ := Lowering.finish_ok hfinish
  obtain ⟨hwhole, hplacements⟩ := Prod.mk.inj happlied
  obtain ⟨e, marker, pl, hmem, rfl, rfl⟩ := (Lowering.finish_at hfinish).mp marked
  have start : ({} : Lowering).Fitting := nofun
  have fits : e.replacement = marker.kind.text :=
    Lowering.run_fitting start hrun (e, marker) (Lowering.mem_noted.mpr (of_mem_zip hmem).1)
  obtain ⟨before, after, htext, hstart⟩ := applyEditsFrom_placed (hplacements ▸ Lowering.written_placed hmem)
  refine ⟨before, after, ?_, by rw [← hstart, Nat.zero_add]⟩
  rw [hwhole, htext, fits]

end CheckHandle
