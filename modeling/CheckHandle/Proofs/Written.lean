import CheckHandle.Proofs.LaidOut

/-!
# What the lowering writes

The lowered text consists of pieces of the source and of the few texts that the
lowering places between them or in their stead. `Written` says which edits do
that, piece by piece; applying these edits gives the text, a placement for each
placed text, and an offset map that leads from each kept piece back to itself.
-/

namespace CheckHandle

open Text Lexer List

/-- A part of the lowered text. -/
inductive Stretch where
  | kept (p : Piece)
  | placed (text : List Char)

def Stretch.text : Stretch → List Char
  | kept p => p.text
  | placed text => text

def stretchText (segs : List Stretch) : List Char := segs.flatMap Stretch.text

@[simp] theorem stretchText_nil : stretchText [] = [] := rfl

@[simp] theorem stretchText_kept (p : Piece) (segs : List Stretch) :
    stretchText (.kept p :: segs) = p.text ++ stretchText segs := rfl

@[simp] theorem stretchText_placed (text : List Char) (segs : List Stretch) :
    stretchText (.placed text :: segs) = text ++ stretchText segs := rfl

@[simp] theorem textOf_nil : textOf [] = [] := rfl

@[simp] theorem textOf_cons (p : Piece) (ps : List Piece) : textOf (p :: ps) = p.text ++ textOf ps := rfl

@[simp] theorem textOf_append (ps1 ps2 : List Piece) : textOf (ps1 ++ ps2) = textOf ps1 ++ textOf ps2 := flatMap_append

/-- The texts that the lowering places. -/
def placedTexts : List String := [")", handleError, checkFunc ++ "(", "if " ++ handleFlag]

def Piece.isLexeme : Piece → Bool
  | .lexeme .. => true
  | _ => false

/-- The pieces from an offset on and the edits made there, with the stretches that
they give. At a place that is `closing`, a text may be put between two pieces:
that is where a token ends. While a semicolon is `pending`, a line may not end,
as the automatic semicolon would be such a token. -/
inductive Written : (closing pending : Bool) → Nat → List Piece → List Edit → List Stretch → Prop where
  | nil {closing pending : Bool} {o : Nat} : Written closing pending o [] [] []
  | gap {closing pending : Bool} {o : Nat} {p : Piece} {ps : List Piece} {es : List Edit}
      {segs : List Stretch} (hgap : p.isLexeme = false) (line : pending = true → p.breaksLine = false)
      (more : Written false pending (o + byteLength p.text) ps es segs) :
      Written closing pending o (p :: ps) es (.kept p :: segs)
  | lexeme {closing pending pending' : Bool} {o : Nat} {kind : TokenKind} {text : List Char}
      {ps : List Piece} {es : List Edit} {segs : List Stretch}
      (free : kind = .ident → isReserved (String.ofList text) = false)
      (more : Written true pending' (o + byteLength text) ps es segs) :
      Written closing pending o (.lexeme kind text :: ps) es (.kept (.lexeme kind text) :: segs)
  | semicolon {closing : Bool} {o : Nat} {ps : List Piece} {es : List Edit} {segs : List Stretch}
      (more : Written true false o ps es segs) : Written closing true o ps es segs
  | place {closing pending closing' pending' : Bool} {o : Nat} {text : String} (gone : List Piece)
      {ps : List Piece} {es : List Edit} {segs : List Stretch} (known : text ∈ placedTexts)
      (between : gone = [] → closing = true) (lexeme : ∀ p ∈ gone.head?, p.isLexeme = true)
      (more : Written closing' pending' (o + byteLength (textOf gone)) ps es segs) :
      Written closing pending o (gone ++ ps) (⟨o, o + byteLength (textOf gone), text⟩ :: es)
        (.placed text.toList :: segs)
  /-- The blanks that an edit has taken are written again after the next one,
  which stands before them. -/
  | again {closing pending closing' pending' : Bool} {o stop : Nat} {text text' : String} {p : Piece}
      {ps : List Piece} {es : List Edit} {segs : List Stretch} (known : text ∈ placedTexts)
      (known' : text' ∈ placedTexts) (lexeme : p.isLexeme = true)
      (beyond : o + byteLength p.text ≤ stop)
      (more : Written closing' pending' (o + byteLength p.text) ps es segs) :
      Written closing pending o (p :: ps) (⟨o, stop, text⟩ :: Edit.insert (o + byteLength p.text) text' :: es)
        (.placed text.toList :: .placed text'.toList :: segs)

variable {pending : Bool} {o cursor lowered : Nat} {ps : List Piece} {es : List Edit}
  {segs : List Stretch} {pre : List Char} {result : List Char × List Placement}

/-- A text in the stead of pieces that end at `stop`. -/
theorem Written.placeTo {closing closing' pending' : Bool} {stop : Nat} {text : String}
    (gone : List Piece) (known : text ∈ placedTexts) (hstop : o + byteLength (textOf gone) = stop)
    (some : gone ≠ []) (lexeme : ∀ p ∈ gone.head?, p.isLexeme = true)
    (more : Written closing' pending' stop ps es segs) :
    Written closing pending o (gone ++ ps) (⟨o, stop, text⟩ :: es) (.placed text.toList :: segs) := by
  subst hstop
  exact .place gone known (fun none => absurd none some) lexeme more

/-- Several texts at the end of a token. -/
theorem Written.closes (h : Written true pending o ps es segs) (n : Nat) :
    Written true pending o ps (replicate n (Edit.insert o ")") ++ es) (replicate n (.placed [')']) ++ segs) := by
  induction n with
  | zero => exact h
  | succ n ih => exact .place [] (by decide) (fun _ => rfl) nofun ih

/-- Any place may as well be one where a token ends. -/
theorem Written.atEnd {closing : Bool} (h : Written closing pending o ps es segs) :
    Written true pending o ps es segs := by
  cases h with
  | nil => exact .nil
  | gap hgap line more => exact .gap hgap line more
  | lexeme free more => exact .lexeme free more
  | semicolon more => exact .semicolon more
  | place gone known between lexeme more => exact .place gone known (fun _ => rfl) lexeme more
  | again known known' lexeme beyond more => exact .again known known' lexeme beyond more

/-- Where no token ends, gaps are kept as they are. -/
theorem Written.skip {gaps : List Piece} (h : Written false false o (gaps ++ ps) es segs)
    (hgaps : ∀ p ∈ gaps, p.isLexeme = false) :
    ∃ segs', Written false false (o + byteLength (textOf gaps)) ps es segs' := by
  induction gaps generalizing o segs with
  | nil => exact ⟨segs, h⟩
  | cons q gaps ih =>
    obtain ⟨hq, hgaps⟩ := forall_mem_cons.mp hgaps
    generalize hall : q :: gaps ++ ps = all at h
    cases h with
    | nil => cases hall
    | gap hgap line more =>
      obtain ⟨rfl, rfl⟩ := List.cons.inj hall
      obtain ⟨segs', h'⟩ := ih more hgaps
      refine ⟨segs', ?_⟩
      rwa [textOf_cons, byteLength_append, ← Nat.add_assoc]
    | lexeme =>
      obtain ⟨rfl, -⟩ := List.cons.inj hall
      cases hq
    | place gone known between lexeme more =>
      cases gone with
      | nil => cases between rfl
      | cons p gone =>
        obtain ⟨rfl, -⟩ := List.cons.inj hall
        rw [lexeme q rfl] at hq
        cases hq
    | again known known' lexeme =>
      obtain ⟨rfl, -⟩ := List.cons.inj hall
      rw [lexeme] at hq
      cases hq

/-! ## Applying the edits -/

theorem dropBytes_byteLength (cs rest : List Char) : dropBytes (byteLength cs) (cs ++ rest) = rest := by
  induction cs with
  | nil =>
    cases rest with
    | nil => rfl
    | cons c rest =>
      have := c.utf8Size_pos
      simp only [byteLength_nil, nil_append, dropBytes]
      rw [if_neg (by omega)]
  | cons c cs ih => simp [dropBytes, ih]

theorem takeBytes_zero (cs : List Char) : takeBytes 0 cs = [] := by
  cases cs with
  | nil => rfl
  | cons c cs =>
    have := c.utf8Size_pos
    rw [takeBytes, if_neg (by omega)]

/-- A small offset is moved as a number. -/
theorem shiftOffset_eq {sourceStop loweredStop offset target : Nat}
    (h : offset + sourceStop = target + loweredStop) (small : target < 2 ^ 63) :
    shiftOffset sourceStop loweredStop offset = target := by
  have hsum : (offset : Int) + sourceStop - loweredStop = target := by omega
  rw [shiftOffset, hsum, Int.bmod_eq_of_le]
  · rfl
  · simp [UInt64.size]
  · simp [UInt64.size]
    omega

theorem applyEditsFrom_cons (source : List Char) (cursor lowered : Nat) (e : Edit) (es : List Edit) :
    applyEditsFrom source cursor lowered (e :: es) = let kept := sliceBytes cursor e.start source
      let start := lowered + byteLength kept
      let stop := start + byteLength e.replacement.toList
      (kept ++ e.replacement.toList ++ (applyEditsFrom source e.stop stop es).1,
        ⟨e.start, e.stop, start, stop⟩ :: (applyEditsFrom source e.stop stop es).2) := rfl

/-- What becomes of the pieces `ps` at offset `o`, where `pre` still has to be
written from offset `lowered` on. -/
structure Applied (cursor lowered : Nat) (pre : List Char) (o : Nat) (ps : List Piece)
    (segs : List Stretch) (result : List Char × List Placement) : Prop where
  text : result.1 = pre ++ stretchText segs
  first : ∀ pl ∈ result.2.head?, lowered + byteLength pre ≤ pl.loweredStart
  placed : ∀ ⦃segs₁ text segs₂⦄, segs = segs₁ ++ .placed text :: segs₂ → ∃ pl ∈ result.2,
    pl.loweredStart = lowered + byteLength (pre ++ stretchText segs₁) ∧
      pl.loweredStop = pl.loweredStart + byteLength text
  kept : ∀ ⦃segs₁ p segs₂⦄, segs = segs₁ ++ .kept p :: segs₂ → ∃ ps₁ ps₂, ps = ps₁ ++ p :: ps₂ ∧
    ∀ d < byteLength p.text, o + byteLength (textOf ps₁) + d < 2 ^ 63 →
      sourceOffsetFrom cursor lowered (lowered + byteLength (pre ++ stretchText segs₁) + d) result.2 =
        o + byteLength (textOf ps₁) + d

theorem Applied.keep {p : Piece} (here : cursor + byteLength pre = o)
    (h : Applied cursor lowered (pre ++ p.text) (o + byteLength p.text) ps segs result) :
    Applied cursor lowered pre o (p :: ps) (.kept p :: segs) result where
  text := by rw [h.text, stretchText_kept, append_assoc]
  first := by
    intro pl hpl
    have := h.first pl hpl
    rw [byteLength_append] at this
    omega
  placed := by
    intro segs1 text segs2 hsplit
    cases segs1 with
    | nil => cases hsplit
    | cons s segs1 =>
      obtain ⟨rfl, htail⟩ := List.cons.inj hsplit
      simpa using h.placed htail
  kept := by
    intro segs1 q segs2 hsplit
    cases segs1 with
    | nil =>
      obtain ⟨hpq, -⟩ := List.cons.inj hsplit
      cases hpq
      refine ⟨[], ps, rfl, fun d hd small => ?_⟩
      have hshift : shiftOffset cursor lowered (lowered + byteLength (pre ++ stretchText []) + d) =
          o + byteLength (textOf []) + d := by
        refine shiftOffset_eq ?_ small
        simp
        omega
      -- The piece stands before the first placement that is left.
      cases hplaced : result.2 with
      | nil => exact hshift
      | cons pl pls =>
        have := h.first pl (by rw [hplaced]; rfl)
        rw [byteLength_append] at this
        rw [sourceOffsetFrom, if_pos, hshift]
        simp
        omega
    | cons s segs1 =>
      obtain ⟨rfl, htail⟩ := List.cons.inj hsplit
      obtain ⟨ps1, ps2, rfl, hmap⟩ := h.kept htail
      refine ⟨p :: ps1, ps2, rfl, fun d hd small => ?_⟩
      simp only [textOf_cons, byteLength_append, ← Nat.add_assoc] at small ⊢
      simpa [Nat.add_assoc] using hmap d hd small

theorem Applied.place {cursor' start o' : Nat} {text : List Char} (gone : List Piece)
    (next : o' = o + byteLength (textOf gone))
    (h : Applied cursor' (lowered + byteLength pre + byteLength text) [] o' ps segs result) :
    Applied cursor lowered pre o (gone ++ ps) (.placed text :: segs)
      (pre ++ text ++ result.1, ⟨start, cursor', lowered + byteLength pre,
        lowered + byteLength pre + byteLength text⟩ :: result.2) where
  text := by rw [h.text, stretchText_placed, nil_append, append_assoc]
  first := by
    rintro pl ⟨⟩
    exact .refl
  placed := by
    intro segs1 text' segs2 hsplit
    cases segs1 with
    | nil =>
      obtain ⟨htext, -⟩ := List.cons.inj hsplit
      cases htext
      exact ⟨_, mem_cons_self, by simp, rfl⟩
    | cons s segs1 =>
      obtain ⟨rfl, htail⟩ := List.cons.inj hsplit
      obtain ⟨pl, hpl, hstart, hstop⟩ := h.placed htail
      exact ⟨pl, mem_cons_of_mem _ hpl, by simpa [Nat.add_assoc] using hstart, hstop⟩
  kept := by
    intro segs1 q segs2 hsplit
    cases segs1 with
    | nil => cases hsplit
    | cons s segs1 =>
      obtain ⟨rfl, htail⟩ := List.cons.inj hsplit
      obtain ⟨ps1, ps2, rfl, hmap⟩ := h.kept htail
      refine ⟨gone ++ ps1, ps2, (append_assoc ..).symm, fun d hd small => ?_⟩
      subst next
      simp only [textOf_append, byteLength_append, ← Nat.add_assoc] at small ⊢
      have hmap := hmap d hd small
      simp only [nil_append] at hmap
      rw [sourceOffsetFrom, if_neg, if_neg]
      · simpa [Nat.add_assoc] using hmap
      · simp
        omega
      · simp
        omega

/-- **Written edits are applied as they read.** -/
theorem Written.applied {closing : Bool} (h : Written closing pending o ps es segs)
    {source before : List Char} (hsource : source = before ++ (pre ++ textOf ps))
    (hcursor : byteLength before = cursor) (here : cursor + byteLength pre = o) :
    Applied cursor lowered pre o ps segs (applyEditsFrom source cursor lowered es) := by
  induction h generalizing before pre cursor lowered with
  | nil =>
    refine ⟨?_, nofun, fun segs1 => by cases segs1 <;> nofun, fun segs1 => by cases segs1 <;> nofun⟩
    rw [hsource, ← hcursor, applyEditsFrom, dropBytes_byteLength]
    rfl
  | gap hgap line more ih =>
    refine (ih ?_ hcursor ?_).keep here
    · rw [hsource, textOf_cons, append_assoc]
    · rw [byteLength_append, ← here, Nat.add_assoc]
  | lexeme free more ih =>
    refine Applied.keep here (ih ?_ hcursor ?_)
    · rw [hsource, textOf_cons, append_assoc]
    · rw [byteLength_append, ← here, Nat.add_assoc]
      rfl
  | semicolon more ih => exact ih hsource hcursor here
  | @place _ _ _ _ o text gone ps _ _ known between lexeme more ih =>
    have hslice : sliceBytes cursor o source = pre := by
      rw [sliceBytes, hsource, ← here, Nat.add_sub_cancel_left, ← hcursor, dropBytes_byteLength, takeBytes_byteLength]
    rw [applyEditsFrom_cons]
    simp only [hslice]
    have hsource' : source = (before ++ pre ++ textOf gone) ++ ([] ++ textOf ps) := by
      rw [hsource, textOf_append]
      simp
    have hcursor' : byteLength (before ++ pre ++ textOf gone) = o + byteLength (textOf gone) := by
      rw [byteLength_append, byteLength_append, hcursor, here]
    exact .place gone rfl (ih hsource' hcursor' rfl)
  | @again _ _ _ _ o stop text text' p ps _ _ known known' lexeme beyond more ih =>
    have hslice : sliceBytes cursor o source = pre := by
      rw [sliceBytes, hsource, ← here, Nat.add_sub_cancel_left, ← hcursor, dropBytes_byteLength, takeBytes_byteLength]
    -- The second edit stands before the end of the first one.
    have hback : sliceBytes stop (o + byteLength p.text) source = [] := by
      rw [sliceBytes, Nat.sub_eq_zero_of_le beyond, takeBytes_zero]
    simp only [applyEditsFrom_cons, Edit.insert, hslice, hback]
    have hsource' : source = (before ++ pre ++ p.text) ++ ([] ++ textOf ps) := by
      rw [hsource, textOf_cons]
      simp
    have hcursor' : byteLength (before ++ pre ++ p.text) = o + byteLength p.text := by
      rw [byteLength_append, byteLength_append, hcursor, here]
    exact Applied.place [p] (by simp) (Applied.place [] rfl (ih hsource' hcursor' rfl))

/-! ## The edits of the lowering -/

/-- Tokens are read one by one, and not as parts of a handler's header. -/
def HandleState.isOpen : HandleState → Bool
  | .idle | .inBody .. => true
  | .wantsName _ | .wantsBrace .. => false

namespace Lowering

/-- The edits so far, in order. -/
def written (s : Lowering) : List Edit := (s.edits.map Prod.fst).reverse

theorem written_emit (s : Lowering) (e : Edit) (marker : Option Marker) :
    (s.emit e marker).written = s.written ++ [e] := by
  simp [written, emit]

theorem written_close (s : Lowering) (t : Token) :
    ∃ n, (s.close t).written = s.written ++ replicate n (Edit.insert s.lastStop ")") := by
  refine ⟨(s.checks.takeWhile (OpenCheck.endsAt t)).length, ?_⟩
  simp [written, close]

/-- The edits that place markers, in order. -/
def noted (s : Lowering) : List (Edit × Marker) := s.edits.reverse.filterMap fun p => p.2.map (p.1, ·)

theorem noted_emit (s : Lowering) (e : Edit) (marker : Option Marker) :
    (s.emit e marker).noted = s.noted ++ (marker.map (e, ·)).toList := by
  cases marker <;> simp [noted, emit]

theorem noted_close (s : Lowering) (t : Token) : (s.close t).noted = s.noted := by
  simp [noted, close]

/-- What a token does: it is kept, or it is the start or a part of what is
replaced. Before it, the checks that end there are closed. -/
inductive Steps (s : Lowering) (t : Token) (next : Option Token) (s' : Lowering) : Prop where
  | keep (n : Nat) (before : s.handler.isOpen = true) (after : s'.handler.isOpen = true)
      (edits : s'.written = s.written ++ replicate n (Edit.insert s.lastStop ")"))
      (other : s.isMarker t .check = false) (noted : s'.noted = s.noted)
  | error (before : s.handler.isOpen = true) (after : s'.handler.isOpen = true) (ident : t.kind = .ident)
      (edits : s'.written = s.written ++ [⟨t.span.start, t.span.stop, handleError⟩])
      (other : s.isMarker t .check = false) (noted : s'.noted = s.noted)
  | check (n : Nat) (first : Token) (before : s.handler.isOpen = true) (after : s'.handler.isOpen = true)
      (ident : t.isIdent MarkerKind.check.keyword = true) (hnext : next = some first)
      (inside : first.endsExpr = false)
      (edits : s'.written = s.written ++ replicate n (Edit.insert s.lastStop ")") ++
        [⟨t.span.start, first.span.start, checkFunc ++ "("⟩])
      (marker : s.isMarker t .check = true)
      (noted : s'.noted = s.noted ++ [(⟨t.span.start, first.span.start, checkFunc ++ "("⟩, .check)])
  | handle (n : Nat) (before : s.handler.isOpen = true) (after : s'.handler = .wantsName t)
      (ident : t.isIdent MarkerKind.handle.keyword = true)
      (edits : s'.written = s.written ++ replicate n (Edit.insert s.lastStop ")"))
      (other : s.isMarker t .check = false) (marker : s.isMarker t .handle = true) (noted : s'.noted = s.noted)
  | name (keyword : Token) (before : s.handler = .wantsName keyword)
      (after : s'.handler = .wantsBrace keyword t) (ident : t.kind = .ident)
      (edits : s'.written = s.written) (noted : s'.noted = s.noted)
  | brace (keyword name : Token) (before : s.handler = .wantsBrace keyword name)
      (after : s'.handler.isOpen = true) (operator : t.kind = .operator)
      (edits : s'.written = s.written ++ [⟨keyword.span.start, name.span.stop, "if " ++ handleFlag⟩])
      (noted : s'.noted = s.noted ++ [(⟨keyword.span.start, name.span.stop, "if " ++ handleFlag⟩, .handle name.text)])

variable {t : Token} {s' s final : Lowering} {next : Option Token}

theorem refuseReserved_bind {k : Except Fault Lowering} (h : (do refuseReserved t; k) = .ok s') :
    refuseReserved t = .ok () ∧ k = .ok s' := by
  cases hr : refuseReserved t with
  | error fault =>
    rw [hr] at h
    cases h
  | ok u =>
    rw [hr] at h
    exact ⟨rfl, h⟩

section Close

variable (before : s.handler.isOpen = true)

include before

theorem openCheck_steps {inHeader : Bool} (marker : s.isMarker t .check = true)
    (h : (s.close t).openCheck t next inHeader = .ok s') :
    s'.lastStop = t.span.stop ∧ s'.afterDot = t.isOperator "." ∧ Steps s t next s' := by
  obtain ⟨n, closed⟩ := written_close s t
  have ident := ((Bool.and_eq_true ..).mp marker).1
  unfold openCheck at h
  split at h
  · cases h
  · rename_i first
    split at h
    · cases h
    · rename_i inside
      obtain rfl := Except.ok.inj h
      refine ⟨rfl, rfl, .check n first before before ident rfl (by simpa using inside) ?_ marker ?_⟩
      · rw [← closed]
        exact written_emit (s.close t) _ _
      · rw [← noted_close s t]
        exact noted_emit (s.close t) _ _

theorem stepPlain_steps (h : (s.close t).stepPlain t next = .ok s') :
    refuseReserved t = .ok () ∧ s'.lastStop = t.span.stop ∧ s'.afterDot = t.isOperator "." ∧ Steps s t next s' := by
  obtain ⟨hr, h⟩ := refuseReserved_bind h
  obtain ⟨n, closed⟩ := written_close s t
  have noted := noted_close s t
  refine ⟨hr, ?_⟩
  split at h
  · exact openCheck_steps before ‹_› h
  · rename_i other
    have other := Bool.eq_false_iff.mpr other
    split at h
    · rename_i marker
      cases h
      exact ⟨rfl, rfl, .handle n before rfl ((Bool.and_eq_true ..).mp marker).1 closed other marker noted⟩
    · split at h
      · cases h
        exact ⟨rfl, rfl, .keep n before before closed other noted⟩
      · cases h
        exact ⟨rfl, rfl, .keep n before before closed other noted⟩

theorem stepCheck_steps {c : OpenCheck} {outer : List OpenCheck} (h : (s.close t).stepCheck c outer t next = .ok s') :
    refuseReserved t = .ok () ∧ s'.lastStop = t.span.stop ∧ s'.afterDot = t.isOperator "." ∧ Steps s t next s' := by
  obtain ⟨hr, h⟩ := refuseReserved_bind h
  obtain ⟨n, closed⟩ := written_close s t
  refine ⟨hr, ?_⟩
  split at h
  · exact openCheck_steps before ‹_› h
  · rename_i other
    dsimp only at h
    split at h
    · cases h
    · cases h
      exact ⟨rfl, rfl, .keep n before before closed (Bool.eq_false_iff.mpr other) (noted_close s t)⟩

theorem stepBody_steps {name : String} {depth : Depth} (h : s.stepBody name depth t = .ok s') :
    refuseReserved t = .ok () ∧ s'.lastStop = t.span.stop ∧ s'.afterDot = t.isOperator "." ∧ Steps s t next s' := by
  obtain ⟨hr, h⟩ := refuseReserved_bind h
  refine ⟨hr, ?_⟩
  have opens : ∀ {d : Depth}, (if d.isZero then HandleState.idle else .inBody name d).isOpen = true := by
    intro d
    split <;> rfl
  split at h
  · cases h
  · split at h
    · cases h
    · rename_i other
      have other := Bool.eq_false_iff.mpr other
      split at h
      · cases h
      · dsimp only at h
        split at h
        · cases h
        · cases h
          refine ⟨rfl, rfl, ?_⟩
          split
          · rename_i bound
            simp only [Token.isIdent, Bool.and_eq_true, beq_iff_eq] at bound
            exact .error before opens bound.1.1 (written_emit s _ none) other
              ((noted_emit s _ none).trans (append_nil _))
          · exact .keep 0 before opens (append_nil _).symm other rfl

end Close

/-- **Every step is one of these.** A token is read only if it is no reserved name. -/
theorem step_steps (h : s.step t next = .ok s') : refuseReserved t = .ok () ∧ s'.lastStop = t.span.stop ∧
      s'.afterDot = t.isOperator "." ∧ Steps s t next s' := by
  unfold step at h
  split at h
  · rename_i keyword before
    obtain ⟨hr, h⟩ := refuseReserved_bind h
    split at h
    · cases h
    · rename_i ident
      cases h
      exact ⟨hr, rfl, rfl, .name keyword before rfl (by simpa using ident) rfl rfl⟩
  · rename_i keyword name before
    obtain ⟨hr, h⟩ := refuseReserved_bind h
    split at h
    · cases h
    · rename_i brace
      simp only [Token.isOperator, Bool.not_eq_true', Bool.not_eq_false, Bool.and_eq_true, beq_iff_eq] at brace
      cases h
      exact ⟨hr, rfl, rfl, .brace keyword name before rfl brace.1 (written_emit s _ _) (noted_emit s _ _)⟩
  · rename_i name depth before
    exact stepBody_steps (by rw [before]; rfl) h
  · rename_i idle
    have before : s.handler.isOpen = true := by rw [idle]; rfl
    split at h
    · cases h
    · dsimp only at h
      split at h
      · exact stepPlain_steps before h
      · exact stepCheck_steps before h

/-- What is still to be written from a state on, for the pieces `ps` at offset
`o`: checks may close at the end of the last token, and the edit of a handler's
header is still to come while the header is read. -/
def Leaves (s : Lowering) (pending : Bool) (o : Nat) (ps : List Piece) (es : List Edit) : Prop :=
  match s.handler with
  | .idle | .inBody .. => ∃ n es' segs, es = replicate n (Edit.insert s.lastStop ")") ++ es' ∧
    Written false pending o ps es' segs
  | .wantsName keyword => ∃ gaps name rest pending' es' segs, ps = gaps ++ .lexeme .ident name :: rest ∧
    (∀ p ∈ gaps, p.isLexeme = false) ∧
    es = ⟨keyword.span.start, o + byteLength (textOf gaps ++ name), "if " ++ handleFlag⟩ :: es' ∧
    Written false pending' (o + byteLength (textOf gaps ++ name)) rest es' segs
  | .wantsBrace keyword name => ∃ es' segs, es = ⟨keyword.span.start, name.span.stop, "if " ++ handleFlag⟩ :: es' ∧
    Written false pending o ps es' segs

theorem leaves_of_isOpen (h : s.handler.isOpen = true) : s.Leaves pending o ps es ↔ ∃ n es' segs,
      es = replicate n (Edit.insert s.lastStop ")") ++ es' ∧ Written false pending o ps es' segs := by
  unfold Leaves
  split <;> simp_all [HandleState.isOpen]

theorem Written.leaves (opened : s.handler.isOpen = true) (n : Nat) {segs : List Stretch}
    (h : Written false pending o ps es segs) :
    s.Leaves pending o ps (replicate n (Edit.insert s.lastStop ")") ++ es) :=
  (leaves_of_isOpen opened).mpr ⟨n, es, segs, rfl, h⟩

/-- At the end of its last token, a state leaves what is written. -/
theorem Leaves.closing (h : s.Leaves pending s.lastStop ps es) (opened : s.handler.isOpen = true) :
    ∃ segs, Written true pending s.lastStop ps es segs := by
  obtain ⟨n, es', segs, rfl, hes'⟩ := (leaves_of_isOpen opened).mp h
  exact ⟨_, hes'.atEnd.closes n⟩

/-- A piece between two tokens. -/
theorem Leaves.gap {p : Piece} (hgap : p.isLexeme = false) (line : pending = true → p.breaksLine = false)
    (h : s.Leaves pending (o + byteLength p.text) ps es) : s.Leaves pending o (p :: ps) es := by
  unfold Leaves at h ⊢
  split at h
  · obtain ⟨n, es', segs, hes, h⟩ := h
    exact ⟨n, es', _, hes, .gap hgap line h⟩
  · obtain ⟨n, es', segs, hes, h⟩ := h
    exact ⟨n, es', _, hes, .gap hgap line h⟩
  · obtain ⟨gaps, name, rest, pending', es', segs, rfl, hgaps, hes, h⟩ := h
    refine ⟨p :: gaps, name, rest, pending', es', segs, rfl, forall_mem_cons.mpr ⟨hgap, hgaps⟩, ?_⟩
    simp only [textOf_cons, append_assoc, byteLength_append, Nat.add_assoc] at hes h ⊢
    exact ⟨hes, h⟩
  · obtain ⟨es', segs, hes, h⟩ := h
    exact ⟨es', _, hes, .gap hgap line h⟩

/-- A token without text: an automatic semicolon or the end. -/
theorem Steps.keeps (h : s.Steps t next s') (ident : t.kind ≠ .ident) (operator : t.kind ≠ .operator) :
    ∃ n, s.handler.isOpen = true ∧ s'.handler.isOpen = true ∧
      s'.written = s.written ++ replicate n (Edit.insert s.lastStop ")") := by
  cases h with
  | keep n before after edits => exact ⟨n, before, after, edits⟩
  | error _ _ hident => exact absurd hident ident
  | check _ _ _ _ hident | handle _ _ _ hident =>
    simp only [Token.isIdent, Bool.and_eq_true, beq_iff_eq] at hident
    exact absurd hident.1 ident
  | name _ _ _ hident => exact absurd hident ident
  | brace _ _ _ _ hoperator => exact absurd hoperator operator

theorem Steps.leaves_empty (h : s.Steps t next s') (ident : t.kind ≠ .ident)
    (operator : t.kind ≠ .operator) (stop : s'.lastStop = t.span.stop)
    (more : s'.Leaves false t.span.stop ps es) :
    ∃ n, s'.written = s.written ++ replicate n (Edit.insert s.lastStop ")") ∧
      s.Leaves true t.span.stop ps (replicate n (Edit.insert s.lastStop ")") ++ es) := by
  obtain ⟨n, before, after, edits⟩ := h.keeps ident operator
  rw [← stop] at more ⊢
  obtain ⟨segs, hes⟩ := more.closing after
  exact ⟨n, edits, Written.leaves before n (.semicolon hes)⟩

/-- The token after a check stands behind gaps. -/
theorem first_token {quiet : List String} {first : Token}
    (h : (scanFrom quiet o false none ps).tokens.head? = some first)
    (inside : first.endsExpr = false) :
    ∃ gaps rest, ps = gaps ++ rest ∧ (∀ p ∈ gaps, p.isLexeme = false) ∧
      first.span.start = o + byteLength (textOf gaps) := by
  induction ps generalizing o with
  | nil =>
    obtain rfl := Option.some.inj h
    cases inside
  | cons p ps ih =>
    unfold scanFrom at h
    split at h
    · obtain rfl := Option.some.inj h
      exact ⟨[], _, rfl, nofun, rfl⟩
    · rename_i hgap
      rw [Bool.false_and, if_neg (by decide)] at h
      obtain ⟨gaps, rest, rfl, hgaps, hstart⟩ := ih h
      refine ⟨p :: gaps, rest, rfl, forall_mem_cons.mpr ⟨?_, hgaps⟩, ?_⟩
      · cases p with
        | lexeme kind text => exact absurd rfl (hgap kind text)
        | _ => rfl
      · rw [hstart, textOf_cons, byteLength_append, Nat.add_assoc]

theorem refuseReserved_free (h : refuseReserved t = .ok ()) (ident : t.kind = .ident) : isReserved t.text = false := by
  unfold refuseReserved at h
  split at h
  · cases h
  · rename_i hfree
    simpa [ident] using hfree

/-- A token with its text. -/
theorem Steps.leaves_lexeme {kind : TokenKind} {text : List Char}
    (ht : t = ⟨kind, String.ofList text, ⟨o, o + byteLength text⟩⟩) (h : s.Steps t next s')
    (hnext : next =
      (scanFrom ScanMode.marked.quiet (o + byteLength text) (t.endsLine ScanMode.marked.quiet) none ps).tokens.head?)
    (free : refuseReserved t = .ok ()) (stop : s'.lastStop = t.span.stop)
    (more : s'.Leaves (t.endsLine ScanMode.marked.quiet) (o + byteLength text) ps es) :
    ∃ es', s'.written ++ es = s.written ++ es' ∧ s.Leaves pending o (.lexeme kind text :: ps) es' := by
  have free : kind = .ident → isReserved (String.ofList text) = false := by
    subst ht
    exact refuseReserved_free free
  have stop : s'.lastStop = o + byteLength text := by rw [stop, ht]
  have closing : s'.handler.isOpen = true → ∃ segs, Written true (t.endsLine ScanMode.marked.quiet)
      (o + byteLength text) ps es segs := by
    intro opened
    rw [← stop] at more ⊢
    exact more.closing opened
  cases h with
  | keep n before after edits =>
    obtain ⟨segs, hes⟩ := closing after
    exact ⟨_, by rw [edits, append_assoc], Written.leaves before n (.lexeme free hes)⟩
  | error before after ident edits =>
    obtain ⟨segs, hes⟩ := closing after
    have placed : Written false pending o (.lexeme kind text :: ps) (⟨o, o + byteLength text, handleError⟩ :: es) _ :=
      .placeTo [.lexeme kind text] (by decide) (by simp [Piece.text]) (by simp) (by rintro p ⟨⟩; rfl) hes
    subst ht
    exact ⟨_, by rw [edits, append_assoc]; rfl, Written.leaves before 0 placed⟩
  | check n first before after ident hfirst inside edits =>
    have quiet : t.endsLine ScanMode.marked.quiet = false := by
      simp only [Token.isIdent, Bool.and_eq_true, beq_iff_eq] at ident
      simp [Token.endsLine, ident, ScanMode.quiet]
    rw [quiet] at more hnext
    rw [hfirst] at hnext
    obtain ⟨gaps, rest, rfl, hgaps, hstart⟩ := first_token hnext.symm inside
    obtain ⟨m, es, segs, rfl, hes⟩ := (leaves_of_isOpen after).mp more
    rw [stop]
    rw [hstart, ht] at edits
    have placed : ∃ segs', Written false pending o (.lexeme kind text :: (gaps ++ rest))
        (⟨o, o + byteLength text + byteLength (textOf gaps), checkFunc ++ "("⟩ ::
          (replicate m (Edit.insert (o + byteLength text) ")") ++ es)) segs' := by
      cases m with
      | zero =>
        obtain ⟨segs', hes'⟩ := hes.skip hgaps
        refine ⟨_, Written.placeTo (.lexeme kind text :: gaps) (by decide) ?_ (by simp) (by rintro p ⟨⟩; rfl) hes'⟩
        rw [textOf_cons, byteLength_append, ← Nat.add_assoc]
        rfl
      | succ m =>
        -- The check ends before the gaps, which are written after its end.
        exact ⟨_, .again (by decide) (by decide) rfl (Nat.le_add_right ..) (hes.atEnd.closes m)⟩
    obtain ⟨segs', hplaced⟩ := placed
    exact ⟨_, by rw [edits]; simp, Written.leaves before n hplaced⟩
  | handle n before after ident edits =>
    simp only [Leaves, after] at more
    obtain ⟨gaps, name, rest, pending', es, segs, rfl, hgaps, rfl, hes⟩ := more
    have placed : Written false pending o ((.lexeme kind text :: (gaps ++ [.lexeme .ident name])) ++ rest)
        (⟨o, o + byteLength text + byteLength (textOf gaps ++ name), "if " ++ handleFlag⟩ :: es) _ :=
      .placeTo _ (by decide) (by simp [Piece.text, Nat.add_assoc]) (by simp) (by rintro p ⟨⟩; rfl) hes
    rw [cons_append, append_assoc] at placed
    subst ht
    exact ⟨_, by rw [edits, append_assoc], Written.leaves before n placed⟩
  | name keyword before after ident edits =>
    simp only [Leaves, after] at more
    obtain ⟨es, segs, rfl, hes⟩ := more
    subst ht
    obtain rfl : kind = .ident := ident
    refine ⟨_, by rw [edits], ?_⟩
    simp only [Leaves, before]
    exact ⟨[], text, ps, _, es, segs, rfl, by simp, rfl, hes⟩
  | brace keyword name before after operator edits =>
    obtain ⟨segs, hes⟩ := closing after
    refine ⟨_, by rw [edits, append_assoc], ?_⟩
    simp only [Leaves, before]
    exact ⟨es, _, rfl, .lexeme free hes⟩

theorem run_cons {ts : List Token} (h : s.run (t :: ts) = .ok final) :
    ∃ s', s.step t ts.head? = .ok s' ∧ s'.run ts = .ok final := by
  rw [run] at h
  cases hstep : s.step t ts.head? with
  | error fault =>
    rw [hstep] at h
    cases h
  | ok s' =>
    rw [hstep] at h
    exact ⟨s', rfl, h⟩

/-- **A run leaves what is written.** The edits that a run adds are those that the pieces it reads
call for. -/
theorem run_leaves (h : s.run (scanFrom ScanMode.marked.quiet o pending none ps).tokens = .ok final) :
    ∃ es, final.written = s.written ++ es ∧ s.Leaves pending o ps es := by
  have ends : ∀ {s : Lowering} {pending : Bool} {o : Nat}, s.run [⟨.endOfText, "", ⟨o, o⟩⟩] = .ok final →
      ∃ es, final.written = s.written ++ es ∧ s.Leaves pending o [] es := by
    intro s pending o h
    obtain ⟨s', hstep, hrun⟩ := run_cons h
    obtain rfl := Except.ok.inj hrun
    obtain ⟨-, -, -, steps⟩ := step_steps hstep
    obtain ⟨n, before, -, edits⟩ := steps.keeps (by simp) (by simp)
    exact ⟨_, edits, by simpa using Written.leaves before n .nil⟩
  induction ps generalizing s pending o with
  | nil =>
    unfold scanFrom at h
    dsimp only at h
    split at h
    · rename_i hpending
      subst hpending
      obtain ⟨s', hstep, hrun⟩ := run_cons h
      obtain ⟨-, stop, -, steps⟩ := step_steps hstep
      obtain ⟨es, hfinal, hes⟩ := ends hrun
      obtain ⟨n, edits, hleaves⟩ := steps.leaves_empty (by rintro ⟨⟩) (by rintro ⟨⟩) stop hes
      exact ⟨_, by rw [hfinal, edits, append_assoc], hleaves⟩
    · exact ends h
  | cons p ps ih =>
    unfold scanFrom at h
    split at h
    · rename_i kind text
      obtain ⟨s', hstep, hrun⟩ := run_cons h
      obtain ⟨free, stop, -, steps⟩ := step_steps hstep
      obtain ⟨es, hfinal, hes⟩ := ih hrun
      obtain ⟨es', hes', hleaves⟩ := steps.leaves_lexeme rfl rfl free stop hes
      exact ⟨es', by rw [hfinal, hes'], hleaves⟩
    · rename_i hgap
      have hgap : p.isLexeme = false := by
        cases p with
        | lexeme kind text => exact absurd rfl (hgap kind text)
        | _ => rfl
      split at h
      · rename_i hbreak
        obtain ⟨rfl, -⟩ := (Bool.and_eq_true ..).mp hbreak
        obtain ⟨s', hstep, hrun⟩ := run_cons h
        obtain ⟨-, stop, -, steps⟩ := step_steps hstep
        obtain ⟨es, hfinal, hes⟩ := ih hrun
        obtain ⟨n, edits, hleaves⟩ := steps.leaves_empty (by rintro ⟨⟩) (by rintro ⟨⟩) stop (hes.gap hgap (by simp))
        exact ⟨_, by rw [hfinal, edits, append_assoc], hleaves⟩
      · rename_i hbreak
        obtain ⟨es, hfinal, hes⟩ := ih h
        refine ⟨es, hfinal, hes.gap hgap fun hpending => ?_⟩
        simpa [hpending] using hbreak

/-! ## The lowered source -/

theorem finish_ok {source : String} {l : Lowered} (h : s.finish source = .ok l) :
    misplacedEdit? source.toList 0 s.written = none ∧ l.edits = s.written ∧
      (l.text.toList, l.offsets.placements) = applyEditsFrom source.toList 0 0 s.written ∧
      l.markers = Markers.ofPlacements ((s.edits.reverse.map Prod.snd).zip l.offsets.placements) := by
  simp only [finish, map_reverse] at h
  split at h
  · cases h
  · rename_i placed
    cases h
    refine ⟨placed, rfl, ?_, by rw [map_reverse]⟩
    simp only [applyEdits, String.toList_ofList]
    rfl

end Lowering

/-- How a lowering ends: in a fault of the scan, at a token, or by its edits. -/
theorem lower_eq (source : String) : lower source = match (scan .marked source).fault with
      | some fault => .error fault
      | none =>
        match Lowering.run {} (scan .marked source).tokens with
        | .error fault => .error fault
        | .ok final => final.finish source := by
  unfold lower Scan.toExcept
  cases (scan .marked source).fault with
  | some fault => rfl
  | none =>
    dsimp only [bind, Except.bind]
    cases Lowering.run {} (scan .marked source).tokens <;> rfl

theorem lower_ok {source : String} {l : Lowered} (h : lower source = .ok l) :
    (scan .marked source).fault = none ∧ ∃ final,
      Lowering.run {} (scan .marked source).tokens = .ok final ∧ final.finish source = .ok l := by
  rw [lower_eq] at h
  split at h
  · cases h
  · rename_i nofault
    split at h
    · cases h
    · rename_i final hrun
      exact ⟨nofault, final, hrun, h⟩

end CheckHandle
