import CheckHandle.Proofs.Translated

/-!
# Where the edits of a lowering stand

The edits of a lowering follow each other in the source, and applying them cuts
out what lies between. There is one exception. A check in the header of a
statement ends at the brace of the block, even if nothing stands before the
brace: it is closed behind its keyword, while its opening has already replaced
the blanks up to the brace. Main statement: the edits can be applied if and only
if no such check is read.
-/

namespace CheckHandle

open Text List

/-! ## Edits that can be applied -/

theorem cutsAt_iff {cs : List Char} {n : Nat} : cutsAt cs n = true ↔ CutAt cs n := by
  rw [cutsAt, beq_iff_eq]
  constructor
  · intro h
    exact ⟨takeBytes n cs, dropBytes n cs, (takeBytes_append_dropBytes n cs).symm, h⟩
  · rintro ⟨before, after, rfl, rfl⟩
    rw [takeBytes_byteLength]

/-- No edit starts before the end of one before it. -/
def Apart (es : List Edit) : Prop := es.Pairwise fun e e' => e.stop ≤ e'.start

theorem misplacedEdit?_eq_none_iff {source : List Char} {cursor : Nat} {es : List Edit}
    (cuts : ∀ e ∈ es, e.Cuts source) :
    misplacedEdit? source cursor es = none ↔ (∀ e ∈ es, cursor ≤ e.start) ∧ Apart es := by
  induction es generalizing cursor with
  | nil => simp [misplacedEdit?, Apart]
  | cons e es ih =>
    obtain ⟨first, rest⟩ := forall_mem_cons.mp cuts
    have ends : (cutsAt source e.start && cutsAt source e.stop) = true := by
      rw [cutsAt_iff.mpr first.start, cutsAt_iff.mpr first.stop]
      rfl
    rw [misplacedEdit?, Bool.and_assoc, ends, Bool.and_true, forall_mem_cons, Apart, pairwise_cons]
    constructor
    · intro h
      split at h
      · rename_i room
        have room := of_decide_eq_true room
        obtain ⟨behind, apart⟩ := (ih rest).mp h
        refine ⟨⟨room, fun e' he' => ?_⟩, behind, apart⟩
        exact room.trans (first.ordered.trans (behind e' he'))
      · cases h
    · rintro ⟨⟨room, -⟩, behind, apart⟩
      rw [if_pos (decide_eq_true room)]
      exact (ih rest).mpr ⟨behind, apart⟩

/-- No edit starts before the bound `f` of one before it, and no bound lies
behind the offset `n`. -/
structure EditsInOrder (f : Edit → Nat) (es : List Edit) (n : Nat) : Prop where
  ordered : es.Pairwise fun e e' => f e ≤ e'.start
  before : ∀ e ∈ es, f e ≤ n

namespace EditsInOrder

variable {f : Edit → Nat} {es : List Edit} {n n' : Nat}

theorem nil : EditsInOrder f [] n := ⟨List.Pairwise.nil, by simp⟩

theorem mono (h : EditsInOrder f es n) (le : n ≤ n') : EditsInOrder f es n' :=
  ⟨h.ordered, fun e he => Nat.le_trans (h.before e he) le⟩

theorem snoc (h : EditsInOrder f es n) {e : Edit} (le : n ≤ e.start) (le' : n ≤ n') (last : f e ≤ n') :
    EditsInOrder f (es ++ [e]) n' where
  ordered := by
    refine pairwise_append.mpr ⟨h.ordered, pairwise_singleton .., fun d hd e' he' => ?_⟩
    rw [mem_singleton.mp he']
    exact Nat.le_trans (h.before d hd) le
  before := by
    refine forall_mem_append.mpr ⟨fun d hd => ?_, forall_mem_singleton.mpr last⟩
    exact Nat.le_trans (h.before d hd) le'

theorem closes (h : EditsInOrder f es n) (last : f (Edit.insert n ")") ≤ n) (k : Nat) :
    EditsInOrder f (es ++ replicate k (Edit.insert n ")")) n := by
  induction k with
  | zero => simpa using h
  | succ k ih =>
    rw [replicate_succ', ← append_assoc]
    exact ih.snoc .refl .refl last

end EditsInOrder

/-- The edits follow each other, and all of them end by the offset `n`. -/
abbrev ClearTo (es : List Edit) (n : Nat) : Prop := EditsInOrder Edit.stop es n

/-! ## What a step does -/

namespace Lowering

/-- A check that starts here stands in the header of a statement. -/
def inHeader (s : Lowering) : Bool :=
  match s.checks with
  | [] => s.headers.head? == some s.depth
  | c :: _ => c.inHeader && c.depth.isZero

/-- A check in the header of a statement whose block comes next, behind a gap. -/
structure BareCheck (s : Lowering) (keyword brace : Token) : Prop where
  idle : s.handler = .idle
  marker : s.isMarker keyword .check = true
  header : s.inHeader = true
  block : brace.isOperator Token.openBrace = true
  gap : keyword.span.stop < brace.span.start

/-- On the way through the tokens, such a check is read. -/
def ReadsBareCheck (s : Lowering) : List Token → Prop
  | [] => False
  | t :: ts => (∃ brace ∈ ts.head?, s.BareCheck t brace) ∨ ∃ s', s.step t ts.head? = .ok s' ∧ s'.ReadsBareCheck ts

variable {t keyword : Token} {s s' final : Lowering} {next : Option Token} {ts : List Token}
  {cs : List Char}

theorem endsAt_ident (h : t.kind = .ident) (c : OpenCheck) : OpenCheck.endsAt t c = false := by
  simp [OpenCheck.endsAt, Token.endsExpr, Token.isOperator, h]

/-- A word closes nothing. -/
theorem close_of_ident (h : t.kind = .ident) (s : Lowering) : s.close t = s := by
  have none : s.checks.takeWhile (OpenCheck.endsAt t) = [] ∧ s.checks.dropWhile (OpenCheck.endsAt t) = s.checks := by
    cases s.checks with
    | nil => exact ⟨rfl, rfl⟩
    | cons c outer => simp [endsAt_ident h c]
  rw [close, none.1, none.2]
  rfl

/-- The state after the keyword of a check. -/
def opened (s : Lowering) (keyword first : Token) : Lowering :=
  { s.emit ⟨keyword.span.start, first.span.start, checkFunc ++ "("⟩ (some .check) with
    checks := { inHeader := s.inHeader } :: s.checks }.consume keyword

theorem openCheck_eq {b : Bool} (hb : b = s.inHeader) (h : s.openCheck t next b = .ok s') :
    ∃ first, next = some first ∧ first.endsExpr = false ∧ s' = s.opened t first := by
  unfold openCheck at h
  split at h
  · cases h
  · rename_i first
    split at h
    · cases h
    · rename_i inside
      cases h
      subst hb
      exact ⟨first, rfl, by simpa using inside, rfl⟩

/-- The keyword of a check opens it. -/
theorem step_check (idle : s.handler = .idle) (marker : s.isMarker t .check = true) (h : s.step t next = .ok s') :
    ∃ first, next = some first ∧ first.endsExpr = false ∧ s' = s.opened t first := by
  have ident : t.kind = .ident := by
    simp only [isMarker, Token.isIdent, Bool.and_eq_true, beq_iff_eq] at marker
    exact marker.1.1
  unfold step at h
  rw [idle] at h
  dsimp only at h
  split at h
  · cases h
  · rw [close_of_ident ident] at h
    split at h
    · rename_i none
      obtain ⟨-, h⟩ := refuseReserved_bind h
      rw [if_pos marker] at h
      exact openCheck_eq (by rw [inHeader, none]) h
    · rename_i c outer some
      obtain ⟨-, h⟩ := refuseReserved_bind h
      rw [if_pos marker] at h
      exact openCheck_eq (by rw [inHeader, some]) h

/-- Another token closes the checks that end before it, and no more. -/
theorem step_plain (idle : s.handler = .idle) (marker : s.isMarker t .check = false) (h : s.step t next = .ok s') :
    s'.written = (s.close t).written ∧ s'.lastStop = t.span.stop ∧
      (s'.handler = .idle ∨ s'.handler = .wantsName t) := by
  have same : (s.close t).isMarker t .check = s.isMarker t .check ∧ (s.close t).handler = s.handler := ⟨rfl, rfl⟩
  simp only [step, idle, stepPlain, stepCheck, refuseReserved, bind, Except.bind, pure, Except.pure, consume] at h
  grind [written]

/-- A token in the body of a handler is kept or replaced. -/
theorem stepBody_written {name : String} {depth : Depth} (h : s.stepBody name depth t = .ok s') :
    s'.lastStop = t.span.stop ∧ (s'.handler = .idle ∨ ∃ d, s'.handler = .inBody name d) ∧
      (s'.written = s.written ∨ s'.written = s.written ++ [⟨t.span.start, t.span.stop, handleError⟩]) := by
  have replaced := written_emit s ⟨t.span.start, t.span.stop, handleError⟩ none
  simp only [stepBody, refuseReserved, bind, Except.bind, pure, Except.pure, consume] at h
  grind [written]

/-! ## The edits of a run -/

/-- The edits so far follow each other, and the next one can only come after
them. Behind the keyword of a check they reach to the next token, which then
closes no check. -/
def Ready (s : Lowering) (ts : List Token) : Prop :=
  match s.handler with
  | .wantsName keyword => ClearTo s.written keyword.span.start ∧ keyword.span.start ≤ s.lastStop
  | .wantsBrace keyword name => ClearTo s.written keyword.span.start ∧
    keyword.span.start ≤ name.span.stop ∧ name.span.stop ≤ s.lastStop
  | .inBody .. => ClearTo s.written s.lastStop
  | .idle => ClearTo s.written s.lastStop ∨ ∃ t ∈ ts.head?, ClearTo s.written t.span.start ∧ s.close t = s

theorem Ready.apart (h : s.Ready ts) : Apart s.written := by
  unfold Ready at h
  split at h
  · exact h.1.ordered
  · exact h.1.ordered
  · exact h.ordered
  · rcases h with h | ⟨t, -, h, -⟩
    · exact h.ordered
    · exact h.ordered

theorem ready_of_clear (open? : s.handler = .idle ∨ ∃ name d, s.handler = .inBody name d)
    (h : ClearTo s.written s.lastStop) :
    s.Ready ts := by
  rcases open? with idle | ⟨name, d, body⟩
  · simp only [Ready, idle]
    exact .inl h
  · simp only [Ready, body]
    exact h

theorem written_opened (s : Lowering) (keyword first : Token) : (s.opened keyword first).written =
      s.written ++ [⟨keyword.span.start, first.span.start, checkFunc ++ "("⟩] :=
  written_emit s _ _

/-- A check that is not bare leaves its first token to be read. -/
theorem ready_opened {first : Token} (idle : s.handler = .idle)
    (marker : s.isMarker keyword .check = true) (clear : ClearTo s.written keyword.span.start)
    (ordered : keyword.span.start ≤ keyword.span.stop)
    (behind : keyword.span.stop ≤ first.span.start) (inside : first.endsExpr = false)
    (bare : ¬ s.BareCheck keyword first) :
    (s.opened keyword first).Ready (first :: ts) := by
  have clear' : ClearTo (s.opened keyword first).written first.span.start := by
    rw [written_opened]
    exact clear.snoc .refl (ordered.trans behind) .refl
  have idle' : (s.opened keyword first).handler = .idle := idle
  rcases Nat.lt_or_ge keyword.span.stop first.span.start with gap | joined
  · simp only [Ready, idle']
    refine .inr ⟨first, rfl, clear', ?_⟩
    -- The check that has just been opened does not end at its first token.
    have goesOn : OpenCheck.endsAt first { inHeader := s.inHeader } = false := by
      refine Bool.eq_false_iff.mpr fun ends => ?_
      simp only [OpenCheck.endsAt, inside, Bool.false_or, Bool.and_eq_true] at ends
      exact bare ⟨idle, marker, ends.2.1, ends.2.2, gap⟩
    have checks : (s.opened keyword first).checks = { inHeader := s.inHeader } :: s.checks := rfl
    rw [close, checks, takeWhile_cons_of_neg (by simp [goesOn]), dropWhile_cons_of_neg (by simp [goesOn]), ← checks]
    rfl
  · exact ready_of_clear (.inl idle') (clear'.mono joined)

/-- **One token.** Unless it starts a bare check, the edits follow each other
after it as before. -/
theorem Ready.step (h : s.Ready (t :: ts)) (tokens : TokensFrom cs s.lastStop (t :: ts))
    (hstep : s.step t ts.head? = .ok s') (bare : ∀ brace ∈ ts.head?, ¬ s.BareCheck t brace) :
    s'.Ready ts := by
  obtain ⟨here, rest⟩ := tokens
  have reached := here.lower.trans here.ordered
  cases hhandler : s.handler with
  | wantsName keyword =>
    simp only [Ready, hhandler] at h
    simp only [Lowering.step, hhandler] at hstep
    obtain ⟨-, hstep⟩ := refuseReserved_bind hstep
    split at hstep
    · cases hstep
    · cases hstep
      exact ⟨h.1, h.2.trans reached, .refl⟩
  | wantsBrace keyword name =>
    simp only [Ready, hhandler] at h
    simp only [Lowering.step, hhandler] at hstep
    obtain ⟨-, hstep⟩ := refuseReserved_bind hstep
    split at hstep
    · cases hstep
    · cases hstep
      refine ready_of_clear (.inr ⟨_, _, rfl⟩) ?_
      have added := written_emit s ⟨keyword.span.start, name.span.stop, "if " ++ handleFlag⟩ (some (.handle name.text))
      refine added ▸ h.1.snoc .refl ?_ ?_
      · exact h.2.1.trans (h.2.2.trans reached)
      · exact h.2.2.trans reached
  | inBody name depth =>
    simp only [Ready, hhandler] at h
    simp only [Lowering.step, hhandler] at hstep
    obtain ⟨stop, after, edits⟩ := stepBody_written hstep
    refine ready_of_clear (after.imp_right (⟨name, ·⟩)) ?_
    rw [stop]
    rcases edits with edits | edits
    · rw [edits]
      exact h.mono reached
    · rw [edits]
      exact h.snoc here.lower reached .refl
  | idle =>
    simp only [Ready, hhandler] at h
    have clear : ClearTo (s.close t).written t.span.start := by
      rcases h with h | ⟨_, ⟨⟩, h, same⟩
      · obtain ⟨n, closed⟩ := written_close s t
        rw [closed]
        exact (h.closes .refl n).mono here.lower
      · rwa [same]
    cases marker : s.isMarker t .check with
    | true =>
      obtain ⟨first, hfirst, inside, rfl⟩ := step_check hhandler marker hstep
      have ident : t.kind = .ident := by
        simp only [isMarker, Token.isIdent, Bool.and_eq_true, beq_iff_eq] at marker
        exact marker.1.1
      rw [close_of_ident ident] at clear
      cases ts with
      | nil => cases hfirst
      | cons u us =>
        cases hfirst
        exact ready_opened hhandler marker clear here.ordered rest.1.lower inside (bare _ rfl)
    | false =>
      obtain ⟨edits, stop, after⟩ := step_plain hhandler marker hstep
      rw [← edits] at clear
      rcases after with after | after
      · exact ready_of_clear (.inl after) (clear.mono (stop ▸ here.ordered))
      · simp only [Ready, after]
        exact ⟨clear, stop ▸ here.ordered⟩

/-- Edits are only added. -/
theorem step_written (h : s.step t next = .ok s') : s.written <+: s'.written := by
  obtain ⟨-, -, -, steps⟩ := step_steps h
  cases steps with
  | keep n _ _ edits | error _ _ _ edits => exact ⟨_, edits.symm⟩
  | check n _ _ _ _ _ _ edits => exact ⟨_, by rw [edits, append_assoc]⟩
  | handle n _ _ _ edits => exact ⟨_, edits.symm⟩
  | name _ _ _ _ edits => exact edits ▸ prefix_refl _
  | brace _ _ _ _ _ edits => exact ⟨_, edits.symm⟩

theorem run_written (h : s.run ts = .ok final) : s.written <+: final.written := by
  induction ts generalizing s with
  | nil =>
    cases h
    exact prefix_refl _
  | cons t ts ih =>
    obtain ⟨s', hstep, hrun⟩ := run_cons h
    exact (step_written hstep).trans (ih hrun)

/-- A bare check is closed before the end of its opening. -/
theorem BareCheck.overlaps {s'' : Lowering} {brace : Token} (h : s.BareCheck keyword brace)
    (hopen : s.step keyword (some brace) = .ok s') (hclose : s'.step brace next = .ok s'') :
    ¬ Apart s''.written := by
  obtain ⟨_, ⟨⟩, -, rfl⟩ := step_check h.idle h.marker hopen
  obtain ⟨kind, text⟩ : brace.kind = .operator ∧ brace.text = Token.openBrace := by
    simpa [Token.isOperator] using h.block
  have other : (s.opened keyword brace).isMarker brace .check = false := by
    simp [isMarker, Token.isIdent, kind]
  obtain ⟨edits, -, -⟩ := step_plain (s := s.opened keyword brace) h.idle other hclose
  have ends : OpenCheck.endsAt brace { inHeader := s.inHeader } = true := by
    simp [OpenCheck.endsAt, h.header, h.block, Depth.isZero]
  intro apart
  rw [edits] at apart
  have checks : (s.opened keyword brace).checks = { inHeader := s.inHeader } :: s.checks := rfl
  simp only [close, written, checks, takeWhile_cons_of_pos ends, length_cons, map_append,
    map_replicate, reverse_append, reverse_replicate] at apart
  have across := (pairwise_append.mp apart).2.2 ⟨keyword.span.start, brace.span.start, checkFunc ++ "("⟩
    (by simp [opened, emit, consume]) (Edit.insert keyword.span.stop ")")
    (mem_replicate.mpr ⟨Nat.succ_ne_zero _, rfl⟩)
  exact absurd across (Nat.not_le.mpr h.gap)

/-- **All tokens.** The edits of a run follow each other if and only if no bare
check is read. -/
theorem run_apart_iff (ready : s.Ready ts) (tokens : TokensFrom cs s.lastStop ts) (hrun : s.run ts = .ok final) :
    Apart final.written ↔ ¬ s.ReadsBareCheck ts := by
  induction ts generalizing s with
  | nil =>
    cases hrun
    exact ⟨fun _ h => h, fun _ => ready.apart⟩
  | cons t ts ih =>
    obtain ⟨s', hstep, hrest⟩ := run_cons hrun
    obtain ⟨-, stop, -⟩ := step_steps hstep
    have further : s'.ReadsBareCheck ts ↔ ∃ s', s.step t ts.head? = .ok s' ∧ s'.ReadsBareCheck ts := by
      constructor
      · intro h
        exact ⟨s', hstep, h⟩
      · rintro ⟨_, h, reads⟩
        cases hstep.symm.trans h
        exact reads
    by_cases bare : ∃ brace ∈ ts.head?, s.BareCheck t brace
    · refine iff_of_false (fun apart => ?_) (fun reads => reads (.inl bare))
      obtain ⟨brace, hbrace, bare⟩ := bare
      cases ts with
      | nil => cases hbrace
      | cons u us =>
        cases hbrace
        obtain ⟨s'', hclose, hrest⟩ := run_cons hrest
        exact bare.overlaps hstep hclose (apart.sublist (run_written hrest).sublist)
    · have next := ready.step tokens hstep fun brace hbrace h => bare ⟨brace, hbrace, h⟩
      rw [ih next (stop ▸ tokens.2) hrest, further, ReadsBareCheck]
      exact ⟨fun h => not_or.mpr ⟨bare, h⟩, fun h => (not_or.mp h).2⟩

/-- Every edit so far starts by the end of the last token, or by the keyword of
the handler whose header is read. -/
def Started (s : Lowering) : Prop :=
  match s.handler with
  | .wantsName keyword | .wantsBrace keyword _ =>
    EditsInOrder Edit.start s.written keyword.span.start ∧ keyword.span.start ≤ s.lastStop
  | .inBody .. | .idle => EditsInOrder Edit.start s.written s.lastStop

theorem started_of_isOpen (opened : s.handler.isOpen = true) :
    s.Started ↔ EditsInOrder Edit.start s.written s.lastStop := by
  unfold Started
  split <;> simp_all [HandleState.isOpen]

theorem Started.inOrder (h : s.Started) : ∃ n, EditsInOrder Edit.start s.written n := by
  unfold Started at h
  split at h
  · exact ⟨_, h.1⟩
  · exact ⟨_, h.1⟩
  · exact ⟨_, h⟩
  · exact ⟨_, h⟩

theorem Started.step (h : s.Started) (here : t.span.CutFrom cs s.lastStop)
    (hstep : s.step t next = .ok s') : s'.Started := by
  obtain ⟨-, stop, -, steps⟩ := step_steps hstep
  have reached := here.lower.trans here.ordered
  have closed : s.handler.isOpen = true → ∀ n,
      EditsInOrder Edit.start (s.written ++ replicate n (Edit.insert s.lastStop ")")) s.lastStop :=
    fun before n => ((started_of_isOpen before).mp h).closes .refl n
  cases steps with
  | keep n before after edits =>
    rw [started_of_isOpen after, edits, stop]
    exact (closed before n).mono reached
  | error before after _ edits =>
    rw [started_of_isOpen after, edits, stop]
    exact ((started_of_isOpen before).mp h).snoc here.lower reached here.ordered
  | check n first before after _ _ _ edits =>
    rw [started_of_isOpen after, edits, stop]
    exact (closed before n).snoc here.lower reached here.ordered
  | handle n before after _ edits =>
    simp only [Started, after, edits, stop]
    exact ⟨(closed before n).mono here.lower, here.ordered⟩
  | name keyword before after _ edits =>
    simp only [Started, before] at h
    simp only [Started, after, edits, stop]
    exact ⟨h.1, h.2.trans reached⟩
  | brace keyword name before after _ edits =>
    simp only [Started, before] at h
    rw [started_of_isOpen after, edits, stop]
    exact h.1.snoc .refl (h.2.trans reached) (h.2.trans reached)

theorem Started.run (h : s.Started) (tokens : TokensFrom cs s.lastStop ts)
    (hrun : s.run ts = .ok final) : final.Started := by
  induction ts generalizing s with
  | nil =>
    cases hrun
    exact h
  | cons t ts ih =>
    obtain ⟨s', hstep, hrest⟩ := run_cons hrun
    obtain ⟨-, stop, -⟩ := step_steps hstep
    exact ih (h.step tokens.1 hstep) (stop ▸ tokens.2) hrest

end Lowering

/-! ## Applying the edits -/

/-- A fault of the scanner is a mistake of the text. -/
theorem scanFrom_fault_internal {quiet : List String} {o : Nat} {pending : Bool} {fault : Option LexFault}
    {ps : List Piece} {f : Fault} (h : (scanFrom quiet o pending fault ps).fault = some f) :
    f.internal = false := by
  rw [scanFrom_fault_eq _ _ _ rfl] at h
  obtain ⟨_, -, rfl⟩ := Option.map_eq_some_iff.mp h
  rfl

/-- The state in which a lowering starts is ready for any tokens. -/
theorem Lowering.ready_start (ts : List Token) : ({} : Lowering).Ready ts := .inl .nil

theorem run_apart {source : String} {final : Lowering} (h : Lowering.run {} (scan .marked source).tokens = .ok final) :
    misplacedEdit? source.toList 0 final.written = none ↔
      ¬ ({} : Lowering).ReadsBareCheck (scan .marked source).tokens := by
  rw [misplacedEdit?_eq_none_iff (run_cuts h), ← Lowering.run_apart_iff (Lowering.ready_start _)
    (scan_inside .marked source).tokens h]
  exact ⟨fun apart => apart.2, fun apart => ⟨fun e _ => Nat.zero_le _, apart⟩⟩

/-- **A lowering breaks off at bare checks only.** The edits of a run over the
tokens are in bounds, between characters and in the order of their starts. They
follow each other without overlapping, so that the lowering can apply them, if
and only if no bare check is read. -/
theorem lower_edits (source : String) : (∀ final, Lowering.run {} (scan .marked source).tokens = .ok final →
      (∀ e ∈ final.written, e.start ≤ e.stop ∧ e.stop ≤ byteLength source.toList ∧
        CutAt source.toList e.start ∧ CutAt source.toList e.stop) ∧
      final.written.mergeSort (fun e e' => decide (e.start ≤ e'.start)) = final.written) ∧
    (∀ l, lower source = .ok l → l.edits.Pairwise fun e e' => e.stop ≤ e'.start) ∧
    ((∃ fault, lower source = .error fault ∧ fault.internal = true) ↔ (scan .marked source).fault = none ∧
      (∃ final, Lowering.run {} (scan .marked source).tokens = .ok final) ∧
      ({} : Lowering).ReadsBareCheck (scan .marked source).tokens) := by
  have inside := (scan_inside .marked source).tokens
  refine ⟨fun final hrun => ⟨fun e he => ?_, ?_⟩, fun l hl => ?_, ?_⟩
  · have cuts := run_cuts hrun e he
    exact ⟨cuts.ordered, cuts.stop.le, cuts.start, cuts.stop⟩
  · have started : ({} : Lowering).Started := EditsInOrder.nil
    obtain ⟨_, inOrder⟩ := (started.run inside hrun).inOrder
    exact mergeSort_of_pairwise (inOrder.ordered.imp fun h => decide_eq_true h)
  · obtain ⟨-, final, hrun, hfinish⟩ := lower_ok hl
    obtain ⟨placed, edits, -, -⟩ := Lowering.finish_ok hfinish
    rw [edits]
    exact ((misplacedEdit?_eq_none_iff (run_cuts hrun)).mp placed).2
  · rw [lower_eq]
    split
    · rename_i fault hfault
      have ordinary := scanFrom_fault_internal hfault
      refine iff_of_false ?_ fun h => by cases hfault.symm.trans h.1
      rintro ⟨_, ⟨⟩, internal⟩
      exact absurd internal (by rw [ordinary]; decide)
    · rename_i nofault
      split
      · rename_i fault hrun
        refine iff_of_false ?_ fun ⟨_, ⟨_, hok⟩, _⟩ => by cases hrun.symm.trans hok
        rintro ⟨_, ⟨⟩, internal⟩
        obtain ⟨t, -, hfault⟩ := Lowering.run_fault hrun
        rw [hfault] at internal
        cases internal
      · rename_i final hrun
        have breaks := run_apart hrun
        simp only [Lowering.finish, map_reverse]
        split
        · rename_i e misplaced
          have reads : ({} : Lowering).ReadsBareCheck (scan .marked source).tokens := by
            by_cases reads : ({} : Lowering).ReadsBareCheck (scan .marked source).tokens
            · exact reads
            · cases misplaced.symm.trans (breaks.mpr reads)
          exact iff_of_true ⟨_, rfl, rfl⟩ ⟨nofault, ⟨final, hrun⟩, reads⟩
        · rename_i placed
          refine iff_of_false ?_ fun h => breaks.mp placed h.2.2
          rintro ⟨_, ⟨⟩, _⟩

/-- The conditional in this source has nothing to check. -/
def bareCheck : String := "package main\nfunc f() \x7b\nif check \x7b \x7d\n\x7d\n"

/-- The outcome is a fault of the tool itself. -/
def breaks {α : Type} : Except Fault α → Bool
  | .error fault => fault.internal
  | .ok _ => false

theorem lower_edits_bareCheck : (∃ fault, lower bareCheck = .error fault ∧ fault.internal = true) ∧
      ({} : Lowering).ReadsBareCheck (scan .marked bareCheck).tokens := by
  have internal : breaks (lower bareCheck) = true := by decide +kernel
  have broken : ∃ fault, lower bareCheck = .error fault ∧ fault.internal = true := by
    cases h : lower bareCheck with
    | ok =>
      rw [h] at internal
      cases internal
    | error fault =>
      rw [h] at internal
      exact ⟨fault, rfl, internal⟩
  exact ⟨broken, ((lower_edits bareCheck).2.2.mp broken).2.2⟩

end CheckHandle
