import CheckHandle.Proofs.Munch
import CheckHandle.Proofs.Written

/-!
# Explicit layout and tokens

Explicit layout changes what stands between lexemes and nothing else. So the
laid out text is cut into the same lexemes at the same offsets. The only new
lexemes are the semicolons that stand for line ends, and a second layout finds
nothing left to do.
-/

namespace CheckHandle

open Text Lexer List

variable {c : Char} {p : Piece}

/-! ## The pieces of a layout -/

/-- The text is cut into these pieces, one after the other. -/
inductive Cut : List Char → List Piece → Prop where
  | nil : Cut [] []
  | cons {c : Char} {cs rest : List Char} {p : Piece} {ps : List Piece} (here : piece c cs = .ok p)
      (whole : c :: cs = p.text ++ rest) (more : Cut rest ps) : Cut (c :: cs) (p :: ps)

variable {text : List Char} {ps : List Piece}

theorem Cut.lex_eq (h : Cut text ps) : lex text = (ps, none) := by
  induction h with
  | nil => rfl
  | cons here whole more ih => rw [lex_cons here whole, ih]

theorem cut_lex (h : lex text = (ps, none)) : Cut text ps := by
  induction text using lex_induction generalizing ps with
  | nil =>
    obtain ⟨rfl, -⟩ := Prod.mk.inj h
    exact .nil
  | fault here =>
    rw [lex, lexFrom, here] at h
    cases h
  | cons here whole _ ih =>
    rw [lex_cons here whole] at h
    obtain ⟨rfl, hfault⟩ := Prod.mk.inj h
    exact .cons here whole (ih (Prod.ext rfl hfault))

theorem Cut.text_eq (h : Cut text ps) : text = textOf ps := by
  induction h with
  | nil => rfl
  | cons here whole more ih =>
    rw [whole, ih]
    rfl

/-- The piece of a blank or a newline. -/
def fillerPiece (c : Char) : Piece :=
  if c == '\n' then .newline else .blank c

theorem fillerPiece_gap (c : Char) : ∀ kind text, fillerPiece c ≠ .lexeme kind text := by
  intro kind text
  unfold fillerPiece
  split <;> nofun

@[simp] theorem text_fillerPiece (c : Char) : (fillerPiece c).text = [c] := by
  unfold fillerPiece
  split
  · rename_i hc
    rw [eq_of_beq hc]
    rfl
  · rfl

@[simp] theorem breaksLine_fillerPiece (c : Char) : (fillerPiece c).breaksLine = (c == '\n') := by
  unfold fillerPiece
  split
  · rename_i hc
    exact hc.symm
  · rename_i hc
    simpa [Piece.breaksLine] using hc

/-- The pieces of blanks and newlines. -/
def fillerPieces (cs : List Char) : List Piece := cs.map fillerPiece

/-- The pieces of a layout: lexemes as they are, blanks and newlines for the
rest, and a semicolon where a line ends. -/
def relaidPieces (pending : Bool) : List Piece → List Piece
  | [] => []
  | p :: ps =>
    match p with
    | .lexeme kind text =>
      let t : Token := ⟨kind, String.ofList text, {}⟩
      p :: relaidPieces (t.endsLine []) ps
    | _ =>
      if pending && p.breaksLine then
        .lexeme (.semicolon false) [';'] :: fillerPieces (blankOut p.text).tail ++ relaidPieces false ps
      else fillerPieces (blankOut p.text) ++ relaidPieces pending ps

theorem Piece.lexeme_or_gap (p : Piece) :
    (∃ kind text, p = .lexeme kind text) ∨ ∀ kind text, p ≠ .lexeme kind text := by
  cases p with
  | lexeme kind text => exact .inl ⟨kind, text, rfl⟩
  | _ => exact .inr nofun

theorem scanFrom_lexeme (quiet : List String) (offset : Nat) (pending : Bool) (fault : Option LexFault)
    (kind : TokenKind) (text : List Char) (ps : List Piece) :
    scanFrom quiet offset pending fault (.lexeme kind text :: ps) = { scanFrom quiet (offset + byteLength text)
          (Token.endsLine quiet ⟨kind, String.ofList text, {}⟩) fault ps with
        tokens := ⟨kind, String.ofList text, ⟨offset, offset + byteLength text⟩⟩ ::
          (scanFrom quiet (offset + byteLength text)
            (Token.endsLine quiet ⟨kind, String.ofList text, {}⟩) fault ps).tokens } :=
  rfl

section Gap

variable (hgap : ∀ kind text, p ≠ .lexeme kind text) (pending : Bool) (ps : List Piece)

include hgap

theorem layoutFrom_gap : layoutFrom pending (p :: ps) =
    if pending && p.breaksLine then ';' :: ((blankOut p.text).tail ++ layoutFrom false ps)
    else blankOut p.text ++ layoutFrom pending ps := by
  cases p with
  | lexeme kind text => exact absurd rfl (hgap kind text)
  | _ => rfl

theorem relaidPieces_gap : relaidPieces pending (p :: ps) = if pending && p.breaksLine then
      .lexeme (.semicolon false) [';'] :: (fillerPieces (blankOut p.text).tail ++ relaidPieces false ps)
    else fillerPieces (blankOut p.text) ++ relaidPieces pending ps := by
  cases p with
  | lexeme kind text => exact absurd rfl (hgap kind text)
  | _ => rfl

theorem scanFrom_gap (quiet : List String) (offset : Nat) (fault : Option LexFault) :
    scanFrom quiet offset pending fault (p :: ps) = if pending && p.breaksLine then
        { scanFrom quiet (offset + byteLength p.text) false fault ps with
          tokens := autoSemicolon offset :: (scanFrom quiet (offset + byteLength p.text) false fault ps).tokens }
      else scanFrom quiet (offset + byteLength p.text) pending fault ps := by
  cases p with
  | lexeme kind text => exact absurd rfl (hgap kind text)
  | _ => rfl

end Gap

theorem mem_blankOut (cs : List Char) : ∀ x ∈ blankOut cs, x = ' ' ∨ x = '\n' := by
  induction cs with
  | nil => nofun
  | cons c cs ih =>
    rw [blankOut]
    refine forall_mem_append.mpr ⟨?_, ih⟩
    split
    · intro x hx
      exact .inr (mem_singleton.mp hx)
    · intro x hx
      exact .inl (eq_of_mem_replicate hx)

variable {cs rest : List Char} {quiet : List String} {offset stop : Nat}
  {pending : Bool}

theorem Cut.fillers {fillers : List Char} (fill : ∀ x ∈ fillers, x = ' ' ∨ x = '\n') (h : Cut text ps) :
    Cut (fillers ++ text) (fillerPieces fillers ++ ps) := by
  induction fillers with
  | nil => exact h
  | cons c fillers ih =>
    obtain ⟨hc, fill⟩ := forall_mem_cons.mp fill
    refine .cons ?_ (by rw [text_fillerPiece]; rfl) (ih fill)
    rcases hc with rfl | rfl <;> rfl

theorem piece_semicolon (cs : List Char) : piece ';' cs = .ok (.lexeme (.semicolon false) [';']) := by
  have word : isIdentStart ';' = false := by decide +kernel
  have hop : operator? (';' :: cs) = some [';'] := by rfl
  have hlexeme : lexeme ';' cs = .ok (.lexeme (.semicolon false) [';']) := by
    rw [lexeme, word, hop]
    rfl
  exact hlexeme

theorem byteLength_pos (h : cs ≠ []) : 0 < byteLength cs := by
  obtain ⟨c, cs, rfl⟩ := exists_cons_of_ne_nil h
  have := c.utf8Size_pos
  rw [byteLength_cons]
  omega

/-- In a layout, what follows a lexeme starts as before or with a filler. -/
theorem Laid.boundary (h : Laid ps cs) (hps : ∀ p ∈ ps, p.text ≠ []) : Boundary (textOf ps) cs := by
  induction h with
  | nil => exact ⟨[], [], [], rfl, rfl, nofun⟩
  | @lexeme ps cs kind text more ih =>
    obtain ⟨-, hps⟩ := forall_mem_cons.mp hps
    obtain ⟨w, r, l, hw, rfl, fill⟩ := ih hps
    refine ⟨text ++ w, r, l, ?_, (append_assoc ..).symm, fill⟩
    rw [append_assoc, ← hw]
    rfl
  | @gap p filler ps cs hgap fill size more ih =>
    obtain ⟨hp, -⟩ := forall_mem_cons.mp hps
    refine ⟨[], _, filler ++ cs, rfl, rfl, ?_⟩
    cases filler with
    | nil =>
      have := byteLength_pos hp
      rw [← size, byteLength_nil] at this
      omega
    | cons x filler =>
      rintro y ⟨⟩
      exact fill x mem_cons_self

theorem Cut.reads (h : Cut text ps) : Reads text ps := reads_lex h.lex_eq

/-- **Same pieces.** The layout of a text is cut into the lexemes of the text. -/
theorem Cut.relaid (h : Cut text ps) (pending : Bool) : Cut (layoutFrom pending ps) (relaidPieces pending ps) := by
  induction h generalizing pending with
  | nil => exact .nil
  | @cons c cs rest p ps here whole more ih =>
    rcases p.lexeme_or_gap with ⟨kind, text, rfl⟩ | hgap
    · -- Nothing new follows the lexeme but fillers, so it is read again.
      have boundary : ∀ pending, Boundary rest (layoutFrom pending ps) := by
        intro pending
        have hps := more.reads.formed.text_ne_nil
        rw [more.text_eq]
        exact (laid_layoutFrom hps pending).boundary hps
      obtain ⟨_, _, form⟩ := piece_form here
      obtain ⟨x, tail, htext⟩ := exists_cons_of_ne_nil form.text_ne_nil
      obtain rfl : text = x :: tail := htext
      obtain rfl : c = x := (List.cons.inj whole).1
      obtain rfl : cs = tail ++ rest := (List.cons.inj whole).2
      exact .cons (piece_alike (boundary _) here rfl) rfl (ih _)
    · rw [layoutFrom_gap hgap, relaidPieces_gap hgap]
      split
      · refine .cons (piece_semicolon _) rfl (.fillers ?_ (ih _))
        intro x hx
        exact mem_blankOut _ x (mem_of_mem_tail hx)
      · exact .fillers (mem_blankOut _) (ih _)

/-! ## The tokens of a layout -/

/-- An automatic semicolon before `stop` as it is written out. -/
def Token.explicit (stop : Nat) (t : Token) : Token :=
  if t.kind = .semicolon true ∧ t.span.start < stop then
    ⟨.semicolon false, ";", ⟨t.span.start, t.span.start + 1⟩⟩
  else t

/-- A semicolon takes the place of the first blank or newline. -/
theorem byteLength_semicolon_tail (h : cs ≠ []) : byteLength ([';'] ++ (blankOut cs).tail) = byteLength cs := by
  have hsize := byteLength_blankOut cs
  have fill := mem_blankOut cs
  cases hblank : blankOut cs with
  | nil =>
    have := byteLength_pos h
    rw [hblank, byteLength_nil] at hsize
    omega
  | cons x xs =>
    rw [hblank] at hsize fill
    rw [← hsize]
    rcases fill x mem_cons_self with rfl | rfl <;> rfl

theorem unbroken_cons (unbroken : pending = true → '\n' ∉ c :: cs) :
    ¬(pending && (fillerPiece c).breaksLine) = true ∧ (pending = true → '\n' ∉ cs) := by
  refine ⟨?_, fun h hmem => unbroken h (mem_cons_of_mem _ hmem)⟩
  rw [breaksLine_fillerPiece, Bool.and_eq_true, beq_iff_eq]
  rintro ⟨hpending, rfl⟩
  exact unbroken hpending mem_cons_self

theorem scanFrom_fillers (unbroken : pending = true → '\n' ∉ cs) :
    scanFrom quiet offset pending none (fillerPieces cs ++ ps) =
      scanFrom quiet (offset + byteLength cs) pending none ps := by
  induction cs generalizing offset with
  | nil => rfl
  | cons c cs ih =>
    obtain ⟨hbreaks, later⟩ := unbroken_cons unbroken
    rw [fillerPieces, map_cons, cons_append, scanFrom_gap (fillerPiece_gap c), if_neg hbreaks, text_fillerPiece]
    refine (ih later).trans ?_
    rw [byteLength_cons c cs, ← Nat.add_assoc]
    rfl

theorem layoutFrom_fillers (fill : ∀ x ∈ cs, x = ' ' ∨ x = '\n') (unbroken : pending = true → '\n' ∉ cs) :
    layoutFrom pending (fillerPieces cs ++ ps) = cs ++ layoutFrom pending ps := by
  induction cs with
  | nil => rfl
  | cons c cs ih =>
    obtain ⟨hbreaks, later⟩ := unbroken_cons unbroken
    obtain ⟨hc, fill⟩ := forall_mem_cons.mp fill
    have hblank : blankOut [c] = [c] := by rcases hc with rfl | rfl <;> rfl
    rw [fillerPieces, map_cons, cons_append, layoutFrom_gap (fillerPiece_gap c), if_neg hbreaks,
      text_fillerPiece, hblank]
    exact congrArg (c :: ·) (ih fill later)

theorem newline_mem_blankOut (h : '\n' ∈ blankOut cs) : '\n' ∈ cs := by
  induction cs with
  | nil => cases h
  | cons c cs ih =>
    rw [blankOut, mem_append] at h
    rcases h with h | h
    · split at h
      · rename_i hc
        rw [eq_of_beq hc]
        exact mem_cons_self
      · exact absurd (eq_of_mem_replicate h) (by decide)
    · exact mem_cons_of_mem c (ih h)

theorem Piece.Form.unbroken (form : p.Form rest) (hgap : ∀ kind text, p ≠ .lexeme kind text)
    (unbroken : p.breaksLine = false) : '\n' ∉ p.text := by
  intro h
  cases form with
  | newline => cases unbroken
  | blank gap => rcases gap with rfl | rfl | rfl <;> simp [Piece.text] at h
  | lineComment => cases unbroken
  | blockComment =>
    rw [Piece.breaksLine, contains_eq_mem, decide_eq_false_iff_not] at unbroken
    exact unbroken h
  | word | number | literal | operator => exact hgap _ _ rfl

theorem Piece.Form.kind_ne {kind : TokenKind} (form : (Piece.lexeme kind text).Form rest) :
    kind ≠ .semicolon true ∧ kind ≠ .endOfText := by
  generalize hp : Piece.lexeme kind text = p at form
  cases form with
  | word =>
    obtain ⟨rfl, -⟩ := Piece.lexeme.inj hp
    rw [wordKind]
    split <;> simp
  | number hkind | literal hkind =>
    obtain ⟨rfl, -⟩ := Piece.lexeme.inj hp
    constructor <;> rintro rfl <;> simp at hkind
  | operator hkind =>
    obtain ⟨rfl, -⟩ := Piece.lexeme.inj hp
    rcases hkind with rfl | rfl <;> simp
  | _ => cases hp

theorem Token.explicit_of_ne {t : Token} (h : t.kind ≠ .semicolon true) : t.explicit stop = t := if_neg fun h' => h h'.1

theorem explicit_autoSemicolon (h : offset < stop) :
    (autoSemicolon offset).explicit stop = ⟨.semicolon false, ";", ⟨offset, offset + 1⟩⟩ :=
  if_pos ⟨rfl, h⟩

theorem explicit_autoSemicolon_last (offset : Nat) : (autoSemicolon offset).explicit offset = autoSemicolon offset :=
  if_neg fun h => Nat.lt_irrefl _ h.2

/-- **Same tokens.** The layout has the tokens of the text, with the semicolons before the end
written out. -/
theorem scanFrom_relaidPieces (reads : Reads text ps) (pending : Bool) (offset : Nat) :
    scanFrom [] offset pending none (relaidPieces pending ps) =
      ⟨(scanFrom [] offset pending none ps).tokens.map (Token.explicit (offset + byteLength text)), none⟩ := by
  induction reads generalizing pending offset with
  | nil =>
    have last : Token.explicit offset ⟨.endOfText, "", ⟨offset, offset⟩⟩ = _ := Token.explicit_of_ne (by simp)
    rw [byteLength_nil, Nat.add_zero]
    cases pending with
    | false => simp [relaidPieces, scanFrom, last]
    | true => simp [relaidPieces, scanFrom, last, explicit_autoSemicolon_last]
  | @cons p rest ps form more ih =>
    rcases p.lexeme_or_gap with ⟨kind, text, rfl⟩ | hgap
    · have kept : ∀ t : Token, t.kind = kind → t.explicit (offset + byteLength (text ++ rest)) = t := by
        rintro t rfl
        exact Token.explicit_of_ne form.kind_ne.1
      change scanFrom [] offset pending none (.lexeme kind text :: relaidPieces _ ps) = _
      rw [scanFrom_lexeme, scanFrom_lexeme, ih, map_cons, Piece.text, kept _ rfl, byteLength_append, ← Nat.add_assoc]
    · rw [relaidPieces_gap hgap, scanFrom_gap hgap]
      split
      · have pos := byteLength_pos form.text_ne_nil
        have here : offset < offset + byteLength (p.text ++ rest) := by
          rw [byteLength_append]
          omega
        -- The semicolon stands for the first byte of the gap.
        have next : offset + byteLength [';'] + byteLength (blankOut p.text).tail = offset + byteLength p.text := by
          rw [Nat.add_assoc, ← byteLength_append, byteLength_semicolon_tail form.text_ne_nil]
        rw [scanFrom_lexeme]
        change (⟨_ :: (scanFrom [] _ false none _).tokens, (scanFrom [] _ false none _).fault⟩ : Scan) = _
        rw [scanFrom_fillers (by simp : false = true → _), next, ih, map_cons, explicit_autoSemicolon here, byteLength_append,
          ← Nat.add_assoc]
        rfl
      · rename_i hbreaks
        rw [scanFrom_fillers, ih, byteLength_append, byteLength_blankOut, Nat.add_assoc]
        intro hpending
        rw [hpending, Bool.true_and] at hbreaks
        exact mt newline_mem_blankOut (form.unbroken hgap (by simpa using hbreaks))

/-- **Nothing left to do.** A second layout is the first one. -/
theorem layoutFrom_relaidPieces (reads : Reads text ps) (pending : Bool) :
    layoutFrom pending (relaidPieces pending ps) = layoutFrom pending ps := by
  induction reads generalizing pending with
  | nil => rfl
  | @cons p rest ps form more ih =>
    rcases p.lexeme_or_gap with ⟨kind, text, rfl⟩ | hgap
    · exact congrArg (text ++ ·) (ih _)
    · rw [relaidPieces_gap hgap, layoutFrom_gap hgap]
      split
      · have fill : ∀ x ∈ (blankOut p.text).tail, x = ' ' ∨ x = '\n' := by
          intro x hx
          exact mem_blankOut _ x (mem_of_mem_tail hx)
        rw [← ih false]
        exact congrArg (';' :: ·) (layoutFrom_fillers fill nofun)
      · rename_i hbreaks
        rw [layoutFrom_fillers (mem_blankOut _), ih]
        intro hpending
        rw [hpending, Bool.true_and] at hbreaks
        exact mt newline_mem_blankOut (form.unbroken hgap (by simpa using hbreaks))

/-! ## Where tokens stand -/

theorem sliceBytes_append (before mid after : List Char) :
    sliceBytes (byteLength before) (byteLength before + byteLength mid) (before ++ (mid ++ after)) = mid := by
  rw [sliceBytes, Nat.add_sub_cancel_left, dropBytes_byteLength, takeBytes_byteLength]

/-- The text of the token stands at its span. -/
def Token.StandsIn (cs : List Char) (t : Token) : Prop :=
  ∃ before after, cs = before ++ (t.text.toList ++ after) ∧ byteLength before = t.span.start ∧
    t.span.stop = t.span.start + byteLength t.text.toList

theorem scanFrom_stands {quiet : List String} {pending : Bool} {fault : Option LexFault} {ps : List Piece}
    (before : List Char) (nofault : (scanFrom quiet (byteLength before) pending fault ps).fault = none) :
    (∀ t ∈ (scanFrom quiet (byteLength before) pending fault ps).tokens, t.StandsIn (before ++ textOf ps)) ∧
    (scanFrom quiet (byteLength before) pending fault ps).tokens.getLast? =
      some ⟨.endOfText, "", ⟨byteLength (before ++ textOf ps), byteLength (before ++ textOf ps)⟩⟩ := by
  induction ps generalizing before pending with
  | nil =>
    have here : ∀ kind, Token.StandsIn (before ++ textOf []) ⟨kind, "", ⟨byteLength before, byteLength before⟩⟩ :=
      fun kind => ⟨before, [], rfl, rfl, rfl⟩
    unfold scanFrom at nofault ⊢
    cases fault <;> cases pending <;> simp_all [autoSemicolon]
  | cons p ps ih =>
    have more := fun pending => @ih pending (before ++ p.text)
    rw [textOf_cons, ← append_assoc]
    rw [byteLength_append] at more
    rcases p.lexeme_or_gap with ⟨kind, text, rfl⟩ | hgap
    · rw [scanFrom_lexeme] at nofault ⊢
      obtain ⟨stand, last⟩ := more _ nofault
      refine ⟨forall_mem_cons.mpr ⟨⟨before, textOf ps, by simp [Piece.text], rfl, by simp⟩, stand⟩, ?_⟩
      rw [getLast?_cons]
      exact congrArg some (congrArg (Option.getD · _) last)
    · rw [scanFrom_gap hgap] at nofault ⊢
      split at nofault
      · rename_i breaks
        obtain ⟨stand, last⟩ := more _ nofault
        rw [if_pos breaks]
        refine ⟨forall_mem_cons.mpr ⟨⟨before, p.text ++ textOf ps, append_assoc .., rfl, rfl⟩, stand⟩, ?_⟩
        rw [getLast?_cons]
        exact congrArg some (congrArg (Option.getD · _) last)
      · rename_i goesOn
        rw [if_neg goesOn]
        exact more _ nofault

/-- Tokens have the text of their spans, and the end is the last of them. -/
theorem scan_stands {mode : ScanMode} {text : String} (nofault : (scan mode text).fault = none) :
    (∀ t ∈ (scan mode text).tokens, t.StandsIn text.toList) ∧
    (scan mode text).tokens.getLast? = some ⟨.endOfText, "", ⟨byteLength text.toList, byteLength text.toList⟩⟩ := by
  have whole : textOf (Lexer.lexFrom 0 text.toList).1 = text.toList := (reads_of_scan nofault).text_eq.symm
  have stands := scanFrom_stands [] nofault
  rwa [nil_append, whole] at stands

theorem Token.StandsIn.slice {t : Token} (h : t.StandsIn cs) : sliceBytes t.span.start t.span.stop cs = t.text.toList := by
  obtain ⟨before, after, rfl, start, stop⟩ := h
  rw [stop, ← start, sliceBytes_append]

/-- An automatic semicolon spans nothing. -/
theorem scanFrom_auto (reads : Reads text ps) :
    ∀ t ∈ (scanFrom quiet offset pending none ps).tokens, t.kind = .semicolon true →
      t = autoSemicolon t.span.start := by
  induction reads generalizing offset pending with
  | nil =>
    intro t ht hkind
    cases pending with
    | false =>
      obtain rfl := mem_singleton.mp ht
      cases hkind
    | true =>
      rcases mem_cons.mp ht with rfl | ht
      · rfl
      · obtain rfl := mem_singleton.mp ht
        cases hkind
  | @cons p rest ps form more ih =>
    rcases p.lexeme_or_gap with ⟨kind, text, rfl⟩ | hgap
    · rw [scanFrom_lexeme]
      refine forall_mem_cons.mpr ⟨?_, ih⟩
      intro hkind
      exact absurd hkind form.kind_ne.1
    · rw [scanFrom_gap hgap]
      split
      · exact forall_mem_cons.mpr ⟨fun _ => rfl, ih⟩
      · exact ih

theorem mem_relaidPieces :
    ∀ q ∈ relaidPieces pending ps, (∃ kind text, q = .lexeme kind text) ∨ q.text = [' '] ∨ q.text = ['\n'] := by
  have fillers : ∀ cs, (∀ x ∈ cs, x = ' ' ∨ x = '\n') → ∀ q ∈ fillerPieces cs,
      (∃ kind text, q = .lexeme kind text) ∨ q.text = [' '] ∨ q.text = ['\n'] := by
    intro cs fill q hq
    obtain ⟨c, hc, rfl⟩ := mem_map.mp hq
    rw [text_fillerPiece]
    rcases fill c hc with rfl | rfl
    · exact .inr (.inl rfl)
    · exact .inr (.inr rfl)
  induction ps generalizing pending with
  | nil => nofun
  | cons p ps ih =>
    rcases p.lexeme_or_gap with ⟨kind, text, rfl⟩ | hgap
    · exact forall_mem_cons.mpr ⟨.inl ⟨kind, text, rfl⟩, ih⟩
    · rw [relaidPieces_gap hgap]
      split
      · refine forall_mem_cons.mpr ⟨.inl ⟨_, _, rfl⟩, forall_mem_append.mpr ⟨?_, ih⟩⟩
        exact fillers _ fun x hx => mem_blankOut _ x (mem_of_mem_tail hx)
      · exact forall_mem_append.mpr ⟨fillers _ (mem_blankOut _), ih⟩

/-- Between the tokens stand blanks and newlines only. -/
theorem scanFrom_covers (offset : Nat)
    (hps : ∀ q ∈ ps, (∃ kind text, q = .lexeme kind text) ∨ q.text = [' '] ∨ q.text = ['\n'])
    {before after : List Char} (h : textOf ps = before ++ c :: after) :
    c = ' ' ∨ c = '\n' ∨ ∃ t ∈ (scanFrom quiet offset pending none ps).tokens,
      t.span.start ≤ offset + byteLength before ∧ offset + byteLength before < t.span.stop := by
  induction ps generalizing offset pending before with
  | nil => simp at h
  | cons p ps ih =>
    obtain ⟨hp, hrest⟩ := forall_mem_cons.mp hps
    rcases append_eq_append_cons h with ⟨w, rfl, hw⟩ | ⟨v, htext, -⟩
    · -- The character stands after the first piece, in what is scanned from there.
      rw [byteLength_append, ← Nat.add_assoc]
      have later : ∀ pending' tokens, (scanFrom quiet (offset + byteLength p.text) pending' none ps).tokens ⊆ tokens →
          c = ' ' ∨ c = '\n' ∨ ∃ t ∈ tokens, t.span.start ≤ offset + byteLength p.text + byteLength w ∧
            offset + byteLength p.text + byteLength w < t.span.stop := by
        intro pending' tokens sub
        rcases ih _ hrest hw with hc | hc | ⟨t, ht, hspan⟩
        · exact .inl hc
        · exact .inr (.inl hc)
        · exact .inr (.inr ⟨t, sub ht, hspan⟩)
      rcases p.lexeme_or_gap with ⟨kind, text, rfl⟩ | hgap
      · exact later _ _ (subset_cons_self ..)
      · rw [scanFrom_gap hgap]
        split
        · exact later _ _ (subset_cons_self ..)
        · exact later _ _ (List.Subset.refl _)
    · have only : ∀ {x : Char}, p.text = [x] → c = x := by
        intro x hx
        rw [hx] at htext
        exact (mem_singleton.mp (htext ▸ mem_append_right _ mem_cons_self))
      rcases hp with ⟨kind, text, rfl⟩ | hblank | hnewline
      · refine .inr (.inr ⟨_, mem_cons_self, Nat.le_add_right .., ?_⟩)
        have := c.utf8Size_pos
        simp only [htext, byteLength_append, byteLength_cons]
        omega
      · exact .inl (only hblank)
      · exact .inr (.inl (only hnewline))

/-! ## Explicit layout -/

/-- The code of a text in another layout: of the same size, with the same tokens
at the same places, save that each automatic semicolon before the end is written
out, with blanks and newlines between them, and final. -/
structure LaysOut (text laid : String) : Prop where
  size : byteLength laid.toList = byteLength text.toList
  kept : ∀ t ∈ (scan .plain text).tokens, sliceBytes t.span.start t.span.stop text.toList = t.text.toList ∧
      sliceBytes t.span.start t.span.stop laid.toList = t.text.toList
  fault : (scan .plain text).fault = none ∧ (scan .plain laid).fault = none
  tokens : (scan .plain laid).tokens = (scan .plain text).tokens.map (Token.explicit (byteLength text.toList))
  between : ∀ before c after, laid.toList = before ++ c :: after → c = ' ' ∨ c = '\n' ∨ ∃ t ∈ (scan .plain laid).tokens,
      t.span.start ≤ byteLength before ∧ byteLength before < t.span.stop
  final : layout laid = .ok laid

theorem layout_ok {text laid : String} (h : layout text = .ok laid) :
    ∃ ps, Cut text.toList ps ∧ laid.toList = layoutFrom false ps := by
  simp only [layout] at h
  split at h
  · cases h
  · rename_i hfault
    rw [scan] at hfault
    obtain rfl := Except.ok.inj h
    exact ⟨_, cut_lex (Prod.ext rfl (scanFrom_fault hfault)), String.toList_ofList⟩

theorem Cut.scan_eq {text : String} (h : Cut text.toList ps) : scan .plain text = scanFrom [] 0 false none ps := by
  rw [scan, h.lex_eq]
  rfl

theorem Cut.scan_fault {text : String} (h : Cut text.toList ps) : (scan .plain text).fault = none := by
  rw [h.scan_eq, scanFrom_fault_eq _ _ _ rfl]
  rfl

theorem Cut.layout_eq {text : String} (h : Cut text.toList ps) :
    layout text = .ok (String.ofList (layoutFrom false ps)) := by
  simp only [layout, h.scan_fault, h.lex_eq]

/-- **Explicit layout keeps the code.** Where a text is laid out, every token stays where it is,
and all that changes is what stands between them. -/
theorem layout_laysOut {text laid : String} (h : layout text = .ok laid) : LaysOut text laid := by
  obtain ⟨ps, cut, hlaid⟩ := layout_ok h
  have cut' : Cut laid.toList (relaidPieces false ps) := hlaid ▸ cut.relaid false
  have hscan : scan .plain laid = ⟨(scan .plain text).tokens.map (Token.explicit (byteLength text.toList)), none⟩ := by
    rw [cut'.scan_eq, cut.scan_eq, scanFrom_relaidPieces cut.reads, Nat.zero_add]
  refine ⟨?_, ?_, ?_, ?_, ?_, ?_⟩
  · have laid := laid_layoutFrom cut.reads.formed.text_ne_nil false
    rw [hlaid, laid.byteLength_eq, ← cut.text_eq]
  · intro t ht
    refine ⟨((scan_stands cut.scan_fault).1 t ht).slice, ?_⟩
    by_cases hkind : t.kind = .semicolon true
    · rw [cut.scan_eq] at ht
      rw [scanFrom_auto cut.reads t ht hkind]
      exact (congrArg (takeBytes · _) (Nat.sub_self _)).trans (takeBytes_zero _)
    · refine ((scan_stands cut'.scan_fault).1 t ?_).slice
      rw [hscan]
      exact mem_map.mpr ⟨t, ht, Token.explicit_of_ne hkind⟩
  · exact ⟨cut.scan_fault, cut'.scan_fault⟩
  · rw [hscan]
  · intro before c after hsplit
    rw [cut'.text_eq] at hsplit
    rw [cut'.scan_eq]
    simpa using scanFrom_covers 0 mem_relaidPieces hsplit
  · rw [cut'.layout_eq, layoutFrom_relaidPieces cut.reads, ← hlaid, String.ofList_toList]

/-- Line ends in comments become semicolons, and the one at the end of the text stays automatic. -/
theorem layout_laysOut_comments : layout "x // é\ny /* ü\n */ z" = .ok "x ;    \ny ;    \n    z" ∧
      LaysOut "x // é\ny /* ü\n */ z" "x ;    \ny ;    \n    z" ∧
      ((scan .plain "x ;    \ny ;    \n    z").tokens.map Token.kind) =
        [.ident, .semicolon false, .ident, .semicolon false, .ident, .semicolon true, .endOfText] :=
  ⟨by cbv, layout_laysOut (by cbv), by decide +kernel⟩

end CheckHandle
