import CheckHandle.Proofs.Relaid

/-!
# Offsets that lead back to the source

A token, the place of a fault and the ends of an edit are offsets at which the
text can be cut. Where all edits are cut so, the map of a lowered text leads from
each of its offsets to an offset of the source: what an edit has placed leads
into the stretch that it replaced, and the rest as far behind the edit before it.
-/

namespace CheckHandle

open Text Lexer List

variable {ts : List Token} {final : Lowering}

/-! ## Where a text can be cut -/

/-- A character of the text starts at this offset, or the text ends there. -/
def CutAt (cs : List Char) (n : Nat) : Prop := ∃ before after, cs = before ++ after ∧ byteLength before = n

variable {cs : List Char} {n lo : Nat} {fault : LexFault} {c : Char} {t : Token}

theorem CutAt.le (h : CutAt cs n) : n ≤ byteLength cs := by
  obtain ⟨before, after, rfl, rfl⟩ := h
  rw [byteLength_append]
  exact Nat.le_add_right _ _

theorem CutAt.byteLength_dropBytes (h : CutAt cs n) : n + byteLength (dropBytes n cs) = byteLength cs := by
  obtain ⟨before, after, rfl, rfl⟩ := h
  rw [dropBytes_byteLength, byteLength_append]

theorem cutAt_zero (cs : List Char) : CutAt cs 0 := ⟨[], cs, rfl, rfl⟩

theorem byteLength_takeBytes_le (n : Nat) (cs : List Char) : byteLength (takeBytes n cs) ≤ n := by
  induction cs generalizing n with
  | nil => exact Nat.zero_le n
  | cons c cs ih =>
    unfold takeBytes
    split
    · rename_i room
      rw [byteLength_cons]
      have := ih (n - c.utf8Size)
      omega
    · exact Nat.zero_le n

theorem byteLength_sliceBytes_le (start stop : Nat) (cs : List Char) :
    byteLength (sliceBytes start stop cs) ≤ stop - start :=
  byteLength_takeBytes_le _ _

/-- The span starts from `lo` on, and the text can be cut at both its ends. -/
structure Span.CutFrom (cs : List Char) (lo : Nat) (s : Span) : Prop where
  lower : lo ≤ s.start
  ordered : s.start ≤ s.stop
  start : CutAt cs s.start
  stop : CutAt cs s.stop

theorem Span.CutFrom.between {s : Span} (h : s.CutFrom cs lo) : s.Between 0 (byteLength cs) :=
  ⟨Nat.zero_le _, h.ordered, h.stop.le⟩

/-! ## Faults of the scanner -/

theorem quoted_isPrefix (quote : Char) (cs : List Char) : (quoted quote cs).1 <+: cs := by
  fun_induction quoted quote cs with
  | case1 => exact nil_prefix
  | case2 => exact prefix_refl _
  | case3 c cs text closed hrest ih =>
    rw [hrest] at ih
    exact (prefix_cons_inj _).mpr ((prefix_cons_inj _).mpr ih)
  | case4 => exact nil_prefix
  | case5 c cs => exact (prefix_cons_inj _).mpr nil_prefix
  | case6 c cs _ _ _ _ text closed hrest ih =>
    rw [hrest] at ih
    exact (prefix_cons_inj _).mpr ih

theorem quotedPiece_fault {quote : Char} {kind : TokenKind} {literal : Enclosed}
    (h : quotedPiece quote kind literal cs = .error fault) :
    fault.text <+: quote :: cs := by
  rw [quotedPiece] at h
  dsimp only at h
  split at h
  · cases h
  · cases h
    exact (prefix_cons_inj _).mpr (quoted_isPrefix quote cs)

theorem lexeme_fault (h : lexeme c cs = .error fault) : fault.text <+: c :: cs := by
  unfold lexeme at h
  split at h
  · cases h
  split at h
  · cases h
  split at h
  · exact quotedPiece_fault h
  split at h
  · exact quotedPiece_fault h
  split at h
  · split at h
    · cases h
    · cases h
      exact prefix_refl _
  · split at h
    · cases h
    · cases h
    · cases h
      exact (prefix_cons_inj _).mpr nil_prefix

/-- What a fault of the scanner covers stands at its place. -/
theorem piece_fault (h : piece c cs = .error fault) : fault.text <+: c :: cs := by
  unfold piece at h
  split at h
  · cases h
  split at h
  · cases h
  split at h
  · cases h
  · split at h
    · cases h
    · cases h
      exact prefix_refl _
  · exact lexeme_fault h

/-- What the pieces of a text and its fault cover. -/
def coveredBy (ps : List Piece) (fault : Option LexFault) : List Char := textOf ps ++ (fault.map LexFault.text).getD []

theorem coveredBy_lex (text : List Char) : coveredBy (lex text).1 (lex text).2 <+: text := by
  induction text using lex_induction with
  | nil => exact prefix_refl _
  | fault here =>
    rw [lex, lexFrom, here]
    exact piece_fault here
  | cons here whole _ ih =>
    rw [lex_cons here whole, whole]
    simpa [coveredBy] using ih

/-- The tokens can be cut out of the text, one after the other. -/
def TokensFrom (cs : List Char) : Nat → List Token → Prop
  | _, [] => True
  | lo, t :: ts => t.span.CutFrom cs lo ∧ TokensFrom cs t.span.stop ts

theorem TokensFrom.mono {lo' : Nat} (h : TokensFrom cs lo ts) (le : lo' ≤ lo) : TokensFrom cs lo' ts := by
  cases ts with
  | nil => trivial
  | cons t ts => exact ⟨⟨le.trans h.1.lower, h.1.ordered, h.1.start, h.1.stop⟩, h.2⟩

theorem TokensFrom.between (h : TokensFrom cs lo ts) (ht : t ∈ ts) : t.span.Between 0 (byteLength cs) := by
  induction ts generalizing lo with
  | nil => cases ht
  | cons u us ih =>
    cases ht with
    | head => exact h.1.between
    | tail _ ht => exact ih h.2 ht

/-- A scan stays in the text: its tokens are cut out of it in order, and its
fault lies in it. -/
structure Scan.Inside (cs : List Char) (lo : Nat) (s : Scan) : Prop where
  tokens : TokensFrom cs lo s.tokens
  fault : ∀ f ∈ s.fault, f.span.Between 0 (byteLength cs)

theorem Scan.Inside.cons {s : Scan} (first : t.span.CutFrom cs lo) (h : s.Inside cs t.span.stop) :
    Scan.Inside cs lo { s with tokens := t :: s.tokens } :=
  ⟨⟨first, h.tokens⟩, h.fault⟩

theorem scanFrom_inside {quiet : List String} {fault : Option LexFault} {ps : List Piece}
    (before : List Char) (pending : Bool) (covers : before ++ coveredBy ps fault <+: cs) :
    (scanFrom quiet (byteLength before) pending fault ps).Inside cs (byteLength before) := by
  induction ps generalizing before pending with
  | nil =>
    obtain ⟨after, rfl⟩ := covers
    have here : CutAt (before ++ coveredBy [] fault ++ after) (byteLength before) :=
      ⟨before, coveredBy [] fault ++ after, append_assoc .., rfl⟩
    have empty : Span.CutFrom (before ++ coveredBy [] fault ++ after) (byteLength before)
        ⟨byteLength before, byteLength before⟩ := ⟨.refl, .refl, here, here⟩
    unfold scanFrom
    split
    · rename_i f
      refine ⟨trivial, ?_⟩
      rintro _ ⟨⟩
      refine ⟨Nat.zero_le _, Nat.le_add_right _ _, ?_⟩
      simp [coveredBy]
    · dsimp only
      split
      · exact ⟨⟨empty, empty, trivial⟩, nofun⟩
      · exact ⟨⟨empty, trivial⟩, nofun⟩
  | cons p ps ih =>
    have next : before ++ p.text ++ coveredBy ps fault <+: cs := by
      simpa [coveredBy] using covers
    have more := fun pending => ih (before ++ p.text) pending next
    rw [byteLength_append] at more
    have here : Span.CutFrom cs (byteLength before) ⟨byteLength before, byteLength before + byteLength p.text⟩ := by
      obtain ⟨after, rfl⟩ := next
      refine ⟨.refl, Nat.le_add_right _ _, ⟨before, p.text ++ (coveredBy ps fault ++ after), ?_, rfl⟩,
        ⟨before ++ p.text, coveredBy ps fault ++ after, ?_, byteLength_append ..⟩⟩
      · simp only [append_assoc]
      · simp only [append_assoc]
    have skip : ∀ {s : Scan}, s.Inside cs (byteLength before + byteLength p.text) → s.Inside cs (byteLength before) :=
      fun h => ⟨h.tokens.mono (Nat.le_add_right _ _), h.fault⟩
    unfold scanFrom
    dsimp only
    split
    · exact .cons here (more _)
    · split
      · exact .cons ⟨.refl, .refl, here.start, here.start⟩ (skip (more false))
      · exact skip (more pending)

/-- **A scan stays in its text.** -/
theorem scan_inside (mode : ScanMode) (text : String) : (scan mode text).Inside text.toList 0 :=
  scanFrom_inside [] false (coveredBy_lex text.toList)

/-! ## Faults and edits of the lowering -/

namespace Lowering

variable {fault : Fault} {s : Lowering} {next : Option Token}

/-- A step fails at the token that it reads, by a mistake of the source. -/
theorem step_fault (h : s.step t next = .error fault) : fault = ⟨fault.cause, t.span, false⟩ := by
  simp only [step, stepBody, stepPlain, stepCheck, openCheck, refuseReserved, bind, Except.bind, pure, Except.pure] at h
  -- Every branch that fails names the token.
  grind

/-- A run fails at one of its tokens. -/
theorem run_fault (h : s.run ts = .error fault) : ∃ t ∈ ts, fault = ⟨fault.cause, t.span, false⟩ := by
  induction ts generalizing s with
  | nil => cases h
  | cons t ts ih =>
    rw [run] at h
    cases hstep : s.step t ts.head? with
    | error f =>
      rw [hstep] at h
      cases h
      exact ⟨t, mem_cons_self, step_fault hstep⟩
    | ok s' =>
      rw [hstep] at h
      obtain ⟨u, hu, hspan⟩ := ih h
      exact ⟨u, mem_cons_of_mem t hu, hspan⟩

end Lowering

/-- The stretch that an edit replaces can be cut out of the text. -/
structure Edit.Cuts (cs : List Char) (e : Edit) : Prop where
  ordered : e.start ≤ e.stop
  start : CutAt cs e.start
  stop : CutAt cs e.stop

theorem Edit.cuts_insert {cs : List Char} {n : Nat} (h : CutAt cs n) (text : String) : (Edit.insert n text).Cuts cs :=
  ⟨.refl, h, h⟩

/-- A state whose tokens so far end before `lo`, and whose edits can be cut out
of the text. -/
structure Lowering.Stays (cs : List Char) (lo : Nat) (s : Lowering) : Prop where
  last : CutAt cs s.lastStop
  keyword : ∀ k, s.handler = .wantsName k → k.span.start ≤ lo ∧ CutAt cs k.span.start
  header : ∀ k name, s.handler = .wantsBrace k name →
    k.span.start ≤ name.span.stop ∧ CutAt cs k.span.start ∧ CutAt cs name.span.stop
  edits : ∀ e ∈ s.written, e.Cuts cs

namespace Lowering

variable {s : Lowering}

theorem Stays.of_isOpen (last : CutAt cs s.lastStop) (opened : s.handler.isOpen = true)
    (edits : ∀ e ∈ s.written, e.Cuts cs) : s.Stays cs lo := by
  refine ⟨last, ?_, ?_, edits⟩
  · intro k hk
    rw [hk] at opened
    cases opened
  · intro k name hk
    rw [hk] at opened
    cases opened

theorem Stays.closing (h : s.Stays cs lo) (n : Nat) :
    ∀ e ∈ s.written ++ replicate n (Edit.insert s.lastStop ")"), e.Cuts cs := by
  refine forall_mem_append.mpr ⟨h.edits, fun e he => ?_⟩
  obtain ⟨-, rfl⟩ := mem_replicate.mp he
  exact Edit.cuts_insert h.last _

/-- What one token does to a state. -/
theorem Stays.step {s' : Lowering} {t : Token} {next : Option Token} (h : s.Stays cs lo)
    (here : t.span.CutFrom cs lo) (hnext : ∀ first ∈ next, first.span.CutFrom cs t.span.stop)
    (hstep : s.step t next = .ok s') :
    s'.Stays cs t.span.stop := by
  obtain ⟨-, stop, -, steps⟩ := step_steps hstep
  have last : CutAt cs s'.lastStop := stop ▸ here.stop
  cases steps with
  | keep n before after edits =>
    refine .of_isOpen last after ?_
    exact edits ▸ h.closing n
  | error before after ident edits =>
    refine .of_isOpen last after ?_
    rw [edits]
    exact forall_mem_append.mpr ⟨h.edits, forall_mem_singleton.mpr ⟨here.ordered, here.start, here.stop⟩⟩
  | check n first before after ident next inside edits =>
    refine .of_isOpen last after ?_
    rw [edits]
    have behind := hnext first next
    exact forall_mem_append.mpr ⟨h.closing n, forall_mem_singleton.mpr
      ⟨here.ordered.trans behind.lower, here.start, behind.start⟩⟩
  | handle n before after ident edits =>
    refine ⟨last, ?_, by simp [after], ?_⟩
    · intro k hk
      rw [after] at hk
      cases hk
      exact ⟨here.ordered, here.start⟩
    · exact edits ▸ h.closing n
  | name keyword before after ident edits =>
    refine ⟨last, by simp [after], ?_, edits ▸ h.edits⟩
    intro k name hk
    rw [after] at hk
    cases hk
    obtain ⟨le, cut⟩ := h.keyword _ before
    exact ⟨le.trans (here.lower.trans here.ordered), cut, here.stop⟩
  | brace keyword name before after operator edits =>
    refine .of_isOpen last after ?_
    rw [edits]
    obtain ⟨ordered, start, stop⟩ := h.header keyword name before
    exact forall_mem_append.mpr ⟨h.edits, forall_mem_singleton.mpr ⟨ordered, start, stop⟩⟩

theorem Stays.run (h : s.Stays cs lo)
    (tokens : TokensFrom cs lo ts) (hrun : s.run ts = .ok final) : ∀ e ∈ final.written, e.Cuts cs := by
  induction ts generalizing s lo with
  | nil =>
    cases hrun
    exact h.edits
  | cons t ts ih =>
    obtain ⟨s', hstep, hrest⟩ := run_cons hrun
    refine ih (h.step tokens.1 ?_ hstep) tokens.2 hrest
    intro first hfirst
    cases ts with
    | nil => cases hfirst
    | cons u us =>
      cases hfirst
      exact tokens.2.1

end Lowering

variable {source : String} {cursor offset : Nat} {es : List Edit}

theorem misplacedEdit?_mem {source : List Char} {e : Edit} (h : misplacedEdit? source cursor es = some e) : e ∈ es := by
  induction es generalizing cursor with
  | nil => cases h
  | cons d es ih =>
    unfold misplacedEdit? at h
    split at h
    · exact mem_cons_of_mem d (ih h)
    · cases h
      exact mem_cons_self

/-- The edits of a run can be cut out of the source. -/
theorem run_cuts (h : Lowering.run {} (scan .marked source).tokens = .ok final) :
    ∀ e ∈ final.written, e.Cuts source.toList := by
  have start : ({} : Lowering).Stays source.toList 0 := .of_isOpen (cutAt_zero _) rfl nofun
  exact start.run (scan_inside .marked source).tokens h

/-- **The lowering fails inside its source.** -/
theorem lower_fault {fault : Fault} (h : lower source = .error fault) :
    fault.span.Between 0 (byteLength source.toList) := by
  have inside := scan_inside .marked source
  rw [lower_eq] at h
  split at h
  · rename_i hfault
    cases h
    exact inside.fault _ hfault
  · split at h
    · rename_i hrun
      cases h
      obtain ⟨t, ht, hspan⟩ := Lowering.run_fault hrun
      rw [hspan]
      exact inside.tokens.between ht
    · rename_i final hrun
      simp only [Lowering.finish, map_reverse] at h
      split at h
      · rename_i e misplaced
        cases h
        have cuts := run_cuts hrun e (misplacedEdit?_mem misplaced)
        exact ⟨Nat.zero_le _, cuts.ordered, cuts.stop.le⟩
      · cases h

/-! ## The map of a lowered text -/

/-- An offset is moved at most as far as a number would be. -/
theorem shiftOffset_le (sourceStop : Nat) {loweredStop : Nat} (h : loweredStop ≤ offset) :
    shiftOffset sourceStop loweredStop offset ≤ sourceStop + (offset - loweredStop) := by
  have nonneg : (offset : Int) + sourceStop - loweredStop = ((sourceStop + (offset - loweredStop) : Nat) : Int) := by
    omega
  have le := Nat.mod_le (sourceStop + (offset - loweredStop)) UInt64.size
  rw [shiftOffset, nonneg, Int.bmod_def, ← Int.natCast_emod]
  split
  · exact le
  · omega

theorem Placement.inside_le {p : Placement} (ordered : p.sourceStart ≤ p.sourceStop) (offset : Nat) :
    p.inside offset ≤ p.sourceStop := by
  rw [Placement.inside, if_neg (Nat.not_lt.mpr ordered)]
  omega

theorem sourceOffsetFrom_le {source : List Char} {lowered : Nat} (cuts : ∀ e ∈ es, e.Cuts source)
    (here : CutAt source cursor) (lower : lowered ≤ offset)
    (upper : offset ≤ lowered + byteLength (applyEditsFrom source cursor lowered es).1) :
    sourceOffsetFrom cursor lowered offset (applyEditsFrom source cursor lowered es).2 ≤ byteLength source := by
  induction es generalizing cursor lowered with
  | nil =>
    have rest := here.byteLength_dropBytes
    have moved := shiftOffset_le cursor lower
    simp only [applyEditsFrom] at upper
    simp only [applyEditsFrom, sourceOffsetFrom]
    omega
  | cons e es ih =>
    have first := cuts e mem_cons_self
    have kept := byteLength_sliceBytes_le cursor e.start source
    rw [applyEditsFrom_cons] at upper ⊢
    simp only [byteLength_append] at upper
    simp only [sourceOffsetFrom]
    have moved := shiftOffset_le cursor lower
    split
    · -- The offset lies in what is kept before the edit.
      have := first.stop.le
      have := first.ordered
      omega
    · rename_i behind
      split
      · exact Nat.le_trans (Placement.inside_le first.ordered offset) first.stop.le
      · rename_i beyond
        exact ih (fun e he => cuts e (mem_cons_of_mem _ he)) first.stop (Nat.le_of_not_lt beyond) (by omega)

/-- **The map leads into the source.** -/
theorem lower_toSource_le {l : Lowered} (h : lower source = .ok l)
    (inside : offset ≤ byteLength l.text.toList) : l.offsets.toSource offset ≤ byteLength source.toList := by
  obtain ⟨-, final, hrun, hfinish⟩ := lower_ok h
  obtain ⟨-, -, happlied, -⟩ := Lowering.finish_ok hfinish
  obtain ⟨htext, hplaced⟩ := Prod.mk.inj happlied
  rw [OffsetMap.toSource, hplaced]
  refine sourceOffsetFrom_le (run_cuts hrun) (cutAt_zero _) (Nat.zero_le _) ?_
  rwa [Nat.zero_add, ← htext]

end CheckHandle
