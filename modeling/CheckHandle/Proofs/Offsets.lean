import CheckHandle.Proofs.Marks
import CheckHandle.Proofs.Placing

/-!
# The map of an edited text

Edits that follow each other cut a source into what is kept and what is
replaced, and the map of the edited text leads what is kept back to where it
stood. Main statement: the map keeps order, is a bijection on what is kept, and
leads what an edit has placed into the stretch that it has replaced.
-/

namespace CheckHandle

open Text List

/-! ## Placements -/

/-- The source offset of an offset of the text, if offsets had no bound. -/
def leadFrom (sourceStop loweredStop offset : Nat) : List Placement → Nat
  | [] => sourceStop + (offset - loweredStop)
  | p :: ps =>
    if offset < p.loweredStart then sourceStop + (offset - loweredStop)
    else if offset < p.loweredStop then
      p.sourceStart + min (offset - p.loweredStart) (p.sourceStop - p.sourceStart)
    else leadFrom p.sourceStop p.loweredStop offset ps

/-- The placement with source and text exchanged. -/
def Placement.swap (p : Placement) : Placement := ⟨p.loweredStart, p.loweredStop, p.sourceStart, p.sourceStop⟩

/-- The placements follow each other from one pair of offsets on, and what lies
between them is as long in the source as in the text, to the end of both. -/
inductive Aligned (size length : Nat) : Nat → Nat → List Placement → Prop where
  | nil {s o : Nat} (n : Nat) (source : size = s + n) (text : length = o + n) : Aligned size length s o []
  | cons {s o : Nat} {p : Placement} {ps : List Placement} (n : Nat) (source : p.sourceStart = s + n)
      (text : p.loweredStart = o + n) (replaced : p.sourceStart ≤ p.sourceStop)
      (placed : p.loweredStart ≤ p.loweredStop) (rest : Aligned size length p.sourceStop p.loweredStop ps) :
      Aligned size length s o (p :: ps)

/-- The offset lies in no stretch that an edit has placed. -/
def Outside (ps : List Placement) (offset : Nat) : Prop :=
  ∀ p ∈ ps, ¬ (p.loweredStart ≤ offset ∧ offset < p.loweredStop)

namespace Aligned

variable {size length s o offset offset' : Nat} {p : Placement} {ps : List Placement}

theorem swap (h : Aligned size length s o ps) : Aligned length size o s (ps.map Placement.swap) := by
  induction h with
  | nil n source text => exact .nil n text source
  | cons n source text replaced placed _ ih => exact .cons n text source placed replaced ih

theorem bounds (h : Aligned size length s o ps) : s ≤ size ∧ o ≤ length := by
  induction h with
  | nil n source text => omega
  | cons n source text replaced placed _ ih => omega

theorem le_of_mem (h : Aligned size length s o ps) (hp : p ∈ ps) : s ≤ p.sourceStart ∧ o ≤ p.loweredStart := by
  induction h with
  | nil => cases hp
  | cons n source text replaced placed _ ih =>
    rcases mem_cons.mp hp with rfl | hp
    · omega
    · have := ih hp
      omega

theorem eq_or_apart {q : Placement} (h : Aligned size length s o ps) (hp : p ∈ ps) (hq : q ∈ ps) :
    p = q ∨ p.sourceStop ≤ q.sourceStart ∨ q.sourceStop ≤ p.sourceStart := by
  induction h with
  | nil => cases hp
  | cons n source text replaced placed rest ih =>
    rcases mem_cons.mp hp with rfl | hp' <;> rcases mem_cons.mp hq with rfl | hq'
    · exact .inl rfl
    · exact .inr (.inl (rest.le_of_mem hq').1)
    · exact .inr (.inr (rest.le_of_mem hp').1)
    · exact ih hp' hq'

/-- Offsets do not lead back behind where they start. -/
theorem le_lead (h : Aligned size length s o ps) (offset : Nat) : s ≤ leadFrom s o offset ps := by
  induction h with
  | nil => exact Nat.le_add_right ..
  | cons n source text replaced placed _ ih =>
    rw [leadFrom]
    split
    · exact Nat.le_add_right ..
    · split <;> omega

theorem lead_mono (h : Aligned size length s o ps) (le : offset ≤ offset') :
    leadFrom s o offset ps ≤ leadFrom s o offset' ps := by
  induction h with
  | nil =>
    simp only [leadFrom]
    omega
  | cons n source text replaced placed rest ih =>
    have behind := rest.le_lead offset'
    simp only [leadFrom]
    split <;> split <;> (try split) <;> (try split) <;> omega

/-- What no edit has placed leads to what no edit has replaced, and back. -/
theorem lead_outside (h : Aligned size length s o ps) (lower : o ≤ offset) (upper : offset < length)
    (outside : Outside ps offset) :
    s ≤ leadFrom s o offset ps ∧ leadFrom s o offset ps < size ∧
      Outside (ps.map Placement.swap) (leadFrom s o offset ps) ∧
      leadFrom o s (leadFrom s o offset ps) (ps.map Placement.swap) = offset := by
  induction h with
  | nil n source text =>
    simp only [leadFrom, map_nil]
    exact ⟨by omega, by omega, nofun, by omega⟩
  | @cons s o p ps n source text replaced placed rest ih =>
    obtain ⟨here, others⟩ := forall_mem_cons.mp outside
    simp only [leadFrom, map_cons, Placement.swap]
    split
    · have bounds := rest.bounds
      refine ⟨by omega, by omega, forall_mem_cons.mpr ⟨by dsimp only; omega, fun q hq => ?_⟩, ?_⟩
      · have := rest.swap.le_of_mem hq
        omega
      · rw [if_pos (by omega)]
        omega
    · rw [if_neg (by omega)]
      obtain ⟨behind, within, apart, back⟩ := ih (by omega) others
      refine ⟨by omega, within, forall_mem_cons.mpr ⟨by dsimp only; omega, apart⟩, ?_⟩
      rw [if_neg (by omega), if_neg (by omega)]
      exact back

/-- What an edit has placed leads into the stretch that it has replaced. -/
theorem sourceOffsetFrom_placed (h : Aligned size length s o ps) (hp : p ∈ ps) (lower : p.loweredStart ≤ offset)
    (upper : offset < p.loweredStop) : sourceOffsetFrom s o offset ps =
      p.sourceStart + min (offset - p.loweredStart) (p.sourceStop - p.sourceStart) := by
  induction h with
  | nil => cases hp
  | cons n source text replaced placed rest ih =>
    rw [sourceOffsetFrom]
    rcases mem_cons.mp hp with rfl | hp
    · rw [if_neg (by omega), if_pos upper, Placement.inside, if_neg (Nat.not_lt.mpr replaced)]
    · have := rest.le_of_mem hp
      rw [if_neg (by omega), if_neg (by omega)]
      exact ih hp

theorem lead_length (h : Aligned size length s o ps) : leadFrom s o length ps = size := by
  induction h with
  | nil n source text =>
    rw [leadFrom]
    omega
  | cons n source text replaced placed rest ih =>
    have := rest.bounds
    rw [leadFrom, if_neg (by omega), if_neg (by omega), ih]

/-- As long as it fits into a word with a sign, the map leads there. -/
theorem sourceOffsetFrom_eq (h : Aligned size length s o ps) (small : size < 2 ^ 63) (lower : o ≤ offset)
    (fits : offset + size < 2 ^ 63 + length) : sourceOffsetFrom s o offset ps = leadFrom s o offset ps := by
  induction h with
  | nil n source text =>
    rw [sourceOffsetFrom, leadFrom]
    exact shiftOffset_eq (by omega) (by omega)
  | @cons s o p ps n source text replaced placed rest ih =>
    have := rest.bounds
    rw [sourceOffsetFrom, leadFrom]
    split
    · exact shiftOffset_eq (by omega) (by omega)
    · split
      · rw [Placement.inside, if_neg (Nat.not_lt.mpr replaced)]
      · exact ih (by omega)

end Aligned

/-! ## Edits and their placements -/

section Cutting

variable {cs : List Char} {a b i : Nat}

theorem CutAt.split (ha : CutAt cs a) (hb : CutAt cs b) (le : a ≤ b) :
    ∃ u m v, cs = u ++ (m ++ v) ∧ byteLength u = a ∧ byteLength u + byteLength m = b := by
  obtain ⟨u, v, rfl, rfl⟩ := ha
  obtain ⟨u', v', heq, rfl⟩ := hb
  rcases append_eq_append_iff.mp heq with ⟨m, rfl, rfl⟩ | ⟨m, rfl, rfl⟩
  · exact ⟨u, m, v', rfl, rfl, (byteLength_append u m).symm⟩
  · -- The first cut lies behind the second only if nothing lies between them.
    rw [byteLength_append] at le
    exact ⟨u' ++ m, [], v, rfl, rfl, by rw [byteLength_append, byteLength_nil]; omega⟩

/-- The bytes of a text in UTF-8. -/
def Text.bytes (cs : List Char) : List UInt8 := cs.flatMap String.utf8EncodeChar

theorem length_bytes (cs : List Char) : (bytes cs).length = byteLength cs := by
  induction cs with
  | nil => rfl
  | cons c cs ih =>
    rw [bytes, flatMap_cons, length_append, String.length_utf8EncodeChar, byteLength_cons, ← ih, bytes]

theorem bytes_append (xs ys : List Char) : bytes (xs ++ ys) = bytes xs ++ bytes ys := flatMap_append

/-- A byte behind the text `u`. -/
theorem bytes_append_right (u v : List Char) (i : Nat) : (bytes (u ++ v))[byteLength u + i]? = (bytes v)[i]? := by
  rw [bytes_append, getElem?_append_right (by rw [length_bytes]; omega), length_bytes, Nat.add_sub_cancel_left]

theorem bytes_append_left (u v : List Char) (h : i < byteLength u) : (bytes (u ++ v))[i]? = (bytes u)[i]? := by
  rw [bytes_append, getElem?_append_left (by rwa [length_bytes])]

end Cutting

variable {source : List Char} {cursor lowered offset : Nat} {es : List Edit} {e : Edit} {p : Placement}

/-- Edits that follow each other are placed one after the other. -/
theorem applyEditsFrom_aligned (here : CutAt source cursor) (cuts : ∀ e ∈ es, e.Cuts source)
    (room : ∀ e ∈ es, cursor ≤ e.start) (apart : Apart es) (lowered : Nat) :
    Aligned (byteLength source) (lowered + byteLength (applyEditsFrom source cursor lowered es).1) cursor lowered
      (applyEditsFrom source cursor lowered es).2 := by
  induction es generalizing cursor lowered with
  | nil => exact .nil _ here.byteLength_dropBytes.symm rfl
  | cons e es ih =>
    obtain ⟨first, cuts⟩ := forall_mem_cons.mp cuts
    obtain ⟨behind, apart⟩ := pairwise_cons.mp apart
    obtain ⟨u, m, v, hsource, rfl, hstart⟩ := here.split first.start (room e mem_cons_self)
    have kept : sliceBytes (byteLength u) e.start source = m := by rw [hsource, ← hstart, sliceBytes_append]
    rw [applyEditsFrom_cons]
    dsimp only
    rw [kept]
    have rest := ih first.stop cuts behind apart (lowered + byteLength m + byteLength e.replacement.toList)
    simp only [byteLength_append, ← Nat.add_assoc]
    exact .cons (byteLength m) hstart.symm rfl first.ordered (Nat.le_add_right ..) rest

/-- What no edit has placed is read in the text as in the source. -/
theorem bytes_applyEditsFrom (here : CutAt source cursor) (cuts : ∀ e ∈ es, e.Cuts source)
    (room : ∀ e ∈ es, cursor ≤ e.start) (apart : Apart es)
    (outside : Outside (applyEditsFrom source cursor lowered es).2 (lowered + offset)) :
    (bytes (applyEditsFrom source cursor lowered es).1)[offset]? =
      (bytes source)[leadFrom cursor lowered (lowered + offset) (applyEditsFrom source cursor lowered es).2]? := by
  induction es generalizing cursor lowered offset with
  | nil =>
    obtain ⟨u, v, rfl, rfl⟩ := here
    rw [applyEditsFrom, dropBytes_byteLength, leadFrom, Nat.add_sub_cancel_left, bytes_append_right]
  | cons e es ih =>
    obtain ⟨first, cuts⟩ := forall_mem_cons.mp cuts
    obtain ⟨behind, apart⟩ := pairwise_cons.mp apart
    obtain ⟨u, m, v, hsource, rfl, hstart⟩ := here.split first.start (room e mem_cons_self)
    have kept : sliceBytes (byteLength u) e.start source = m := by rw [hsource, ← hstart, sliceBytes_append]
    rw [applyEditsFrom_cons] at outside ⊢
    dsimp only at outside ⊢
    rw [kept] at outside ⊢
    obtain ⟨this, others⟩ := forall_mem_cons.mp outside
    rw [leadFrom]
    dsimp only at this ⊢
    split
    · rw [append_assoc, bytes_append_left _ _ (by omega), Nat.add_sub_cancel_left, hsource, bytes_append_right,
        bytes_append_left _ _ (by omega)]
    · obtain ⟨d, rfl⟩ := Nat.exists_eq_add_of_le (by omega : byteLength m + byteLength e.replacement.toList ≤ offset)
      have shift : lowered + (byteLength m + byteLength e.replacement.toList + d) =
          lowered + byteLength m + byteLength e.replacement.toList + d := by omega
      rw [shift] at others ⊢
      rw [if_neg (by omega), ← byteLength_append, bytes_append_right]
      exact ih first.stop cuts behind apart others

theorem placement_of_mem_zip (placed : (e, p) ∈ es.zip (applyEditsFrom source cursor lowered es).2) :
    p.sourceStart = e.start ∧ p.sourceStop = e.stop ∧
      p.loweredStop = p.loweredStart + byteLength e.replacement.toList := by
  induction es generalizing cursor lowered with
  | nil => cases placed
  | cons d es ih =>
    rw [applyEditsFrom_cons, zip_cons_cons] at placed
    rcases mem_cons.mp placed with here | placed
    · cases here
      exact ⟨rfl, rfl, rfl⟩
    · exact ih placed

theorem map_placements (source : List Char) (cursor lowered : Nat) (es : List Edit) :
    (applyEditsFrom source cursor lowered es).2.map (fun p => (p.sourceStart, p.sourceStop)) =
      es.map fun e => (e.start, e.stop) := by
  induction es generalizing cursor lowered with
  | nil => rfl
  | cons e es ih => exact congrArg (_ :: ·) (ih ..)

/-! ## The map of a whole text -/

/-- Offsets of the text that no edit has placed. -/
def keptOffsets (text : String) (map : OffsetMap) : Set Nat :=
  {o | o < byteLength text.toList ∧ ∀ p ∈ map.placements, ¬ (p.loweredStart ≤ o ∧ o < p.loweredStop)}

/-- Offsets of the source that no edit replaces. -/
def untouchedOffsets (source : String) (edits : List Edit) : Set Nat :=
  {s | s < byteLength source.toList ∧ ∀ e ∈ edits, ¬ (e.start ≤ s ∧ s < e.stop)}

/-- The map leads from the edited text back to its source. -/
structure OffsetMap.Faithful (source : String) (edits : List Edit) (text : String) (map : OffsetMap) : Prop where
  /-- Order is kept, as far as a word with a sign goes. -/
  mono : ∀ o o', o ≤ o' → o' + byteLength source.toList < 2 ^ 63 + byteLength text.toList →
    map.toSource o ≤ map.toSource o'
  kept : Set.BijOn map.toSource (keptOffsets text map) (untouchedOffsets source edits)
  order : StrictMonoOn map.toSource (keptOffsets text map)
  bytes : ∀ o ∈ keptOffsets text map, (bytes text.toList)[o]? = (Text.bytes source.toList)[map.toSource o]?
  /-- Every edit has its place, where its replacement is read. -/
  placed : map.placements.length = edits.length ∧ ∀ p ∈ edits.zip map.placements,
    p.2.loweredStop = p.2.loweredStart + byteLength p.1.replacement.toList ∧
      ∃ before after, text.toList = before ++ (p.1.replacement.toList ++ after) ∧ byteLength before = p.2.loweredStart
  inside : ∀ p ∈ edits.zip map.placements, ∀ o, p.2.loweredStart ≤ o → o < p.2.loweredStop →
    p.1.start ≤ map.toSource o ∧ map.toSource o ≤ p.1.stop
  starts : ∀ p ∈ edits.zip map.placements, p.1.replacement ≠ "" → map.toSource p.2.loweredStart = p.1.start
  ends : map.toSource (byteLength text.toList) = byteLength source.toList
  within : ∀ o, o ≤ byteLength text.toList → map.toSource o ≤ byteLength source.toList

/-- **The map of an edited text is faithful.** The edits are in bounds, between
characters and follow each other. -/
theorem applyEdits_faithful (source : String) (edits : List Edit) (cuts : ∀ e ∈ edits, e.Cuts source.toList)
    (apart : edits.Pairwise fun e e' => e.stop ≤ e'.start) (size : byteLength source.toList < 2 ^ 63) :
    OffsetMap.Faithful source edits (applyEdits source edits).1 (applyEdits source edits).2 := by
  have start := cutAt_zero source.toList
  have h := applyEditsFrom_aligned start cuts (fun _ _ => Nat.zero_le _) apart 0
  have ranges := map_placements source.toList 0 0 edits
  have text : (applyEdits source edits).1.toList = (applyEditsFrom source.toList 0 0 edits).1 := String.toList_ofList
  rw [Nat.zero_add, ← text] at h
  generalize hps : (applyEditsFrom source.toList 0 0 edits).2 = ps at h ranges
  have map : (applyEdits source edits).2 = ⟨ps⟩ := congrArg OffsetMap.mk hps
  rw [map]
  have lead : ∀ {o}, o + byteLength source.toList < 2 ^ 63 + byteLength (applyEdits source edits).1.toList →
      OffsetMap.toSource ⟨ps⟩ o = leadFrom 0 0 o ps := fun fits => h.sourceOffsetFrom_eq size (Nat.zero_le _) fits
  have within : ∀ {o}, o ≤ byteLength (applyEdits source edits).1.toList →
      o + byteLength source.toList < 2 ^ 63 + byteLength (applyEdits source edits).1.toList := fun upper => by omega
  have untouched : ∀ s, Outside (ps.map Placement.swap) s ↔ ∀ e ∈ edits, ¬ (e.start ≤ s ∧ s < e.stop) := fun s => by
    have range := congrArg (∀ r ∈ ·, ¬ (r.1 ≤ s ∧ s < r.2)) ranges
    simpa [Outside, Placement.swap] using range
  have maps : ∀ o ∈ keptOffsets (applyEdits source edits).1 ⟨ps⟩,
      OffsetMap.toSource ⟨ps⟩ o = leadFrom 0 0 o ps ∧ leadFrom 0 0 o ps ∈ untouchedOffsets source edits ∧
        leadFrom 0 0 (leadFrom 0 0 o ps) (ps.map Placement.swap) = o := by
    rintro o ⟨upper, outside⟩
    obtain ⟨-, small, apart, back⟩ := h.lead_outside (Nat.zero_le o) upper outside
    exact ⟨lead (within (Nat.le_of_lt upper)), ⟨small, (untouched _).mp apart⟩, back⟩
  have mono : ∀ o o', o ≤ o' → o' + byteLength source.toList < 2 ^ 63 + byteLength (applyEdits source edits).1.toList →
      OffsetMap.toSource ⟨ps⟩ o ≤ OffsetMap.toSource ⟨ps⟩ o' := by
    intro o o' le fits
    rw [lead fits, lead (by omega)]
    exact h.lead_mono le
  have inj : Set.InjOn (OffsetMap.toSource ⟨ps⟩) (keptOffsets (applyEdits source edits).1 ⟨ps⟩) := by
    intro o ho o' ho' same
    rw [(maps o ho).1, (maps o' ho').1] at same
    rw [← (maps o ho).2.2, same, (maps o' ho').2.2]
  have placed : ∀ q ∈ edits.zip ps, ∀ o, q.2.loweredStart ≤ o → o < q.2.loweredStop →
      OffsetMap.toSource ⟨ps⟩ o = q.1.start + min (o - q.2.loweredStart) (q.1.stop - q.1.start) := by
    intro q hq o lower upper
    obtain ⟨start, stop, -⟩ := placement_of_mem_zip (hps ▸ hq)
    rw [← start, ← stop]
    exact h.sourceOffsetFrom_placed (of_mem_zip hq).2 lower upper
  refine ⟨mono, ⟨fun o ho => ?_, inj, ?_⟩, fun o ho o' ho' lt => ?_, fun o ho => ?_, ⟨?_, fun q hq => ?_⟩,
    fun q hq o lower upper => ?_, fun q hq some => ?_, ?_, fun o upper => ?_⟩
  · rw [(maps o ho).1]
    exact (maps o ho).2.1
  · rintro s ⟨small, apart⟩
    have twice : (ps.map Placement.swap).map Placement.swap = ps := by simp [Function.comp_def, Placement.swap]
    obtain ⟨-, upper, outside, back⟩ := h.swap.lead_outside (Nat.zero_le s) small ((untouched s).mpr apart)
    rw [twice] at outside back
    have kept : leadFrom 0 0 s (ps.map Placement.swap) ∈ keptOffsets (applyEdits source edits).1 ⟨ps⟩ := ⟨upper, outside⟩
    exact ⟨_, kept, (maps _ kept).1.trans back⟩
  · refine lt_of_le_of_ne (mono o o' (Nat.le_of_lt lt) (within (Nat.le_of_lt ho'.1))) fun same => ?_
    exact Nat.ne_of_lt lt (inj ho ho' same)
  · rw [(maps o ho).1, text]
    have outside : Outside (applyEditsFrom source.toList 0 0 edits).2 (0 + o) := by
      rw [hps, Nat.zero_add]
      exact ho.2
    have read := bytes_applyEditsFrom start cuts (fun _ _ => Nat.zero_le _) apart outside
    rwa [hps, Nat.zero_add] at read
  · simpa using congrArg length ranges
  · rw [← hps] at hq
    obtain ⟨before, after, whole, start⟩ := applyEditsFrom_placed hq
    exact ⟨(placement_of_mem_zip hq).2.2, before, after, text.trans whole, by omega⟩
  · have := (cuts q.1 (of_mem_zip hq).1).ordered
    rw [placed q hq o lower upper]
    omega
  · have long : 0 < byteLength q.1.replacement.toList := byteLength_pos (by simpa using some)
    have stop := (placement_of_mem_zip (hps ▸ hq)).2.2
    rw [placed q hq _ (Nat.le_refl _) (by omega)]
    omega
  · rw [lead (within (Nat.le_refl _)), h.lead_length]
  · rw [lead (within upper), ← h.lead_length]
    exact h.lead_mono upper

/-- An offset that does not fit into a word with a sign is led to the start. -/
theorem toSource_wraps :
    (applyEdits "x := 1" []).2.toSource (2 ^ 63) < (applyEdits "x := 1" []).2.toSource (2 ^ 63 - 1) := by
  decide

/-- A replacement that is longer, an insertion and a deletion. -/
def threeEdits : List Edit := [⟨5, 11, "_go2check("⟩, .insert 14 ")", ⟨17, 18, ""⟩]

theorem applyEdits_faithful_threeEdits : (∀ e ∈ threeEdits, e.Cuts "x := check f() · y".toList) ∧
    OffsetMap.Faithful "x := check f() · y" threeEdits "x := _go2check(f()) ·y"
      (applyEdits "x := check f() · y" threeEdits).2 := by
  have cuts : ∀ e ∈ threeEdits, e.Cuts "x := check f() · y".toList := by
    intro e he
    simp only [threeEdits, mem_cons, not_mem_nil, or_false] at he
    rcases he with rfl | rfl | rfl <;> exact ⟨by decide, cutsAt_iff.mp (by decide), cutsAt_iff.mp (by decide)⟩
  exact ⟨cuts, applyEdits_faithful _ _ cuts (by decide) (by decide)⟩

end CheckHandle
