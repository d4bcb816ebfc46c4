import CheckHandle.Proofs.Quoting

/-!
# Pieces of a text

What each piece of a text looks like and what may follow it, and the text as a
sequence of pieces. A fold over the characters alone tells code from the inside
of literals and comments; it agrees with the pieces.
-/

namespace CheckHandle

open Text Lexer List

variable {s : Scanning} {c : Char} {text cs rest : List Char} {p : Piece} {ps1 ps2 : List Piece}

/-! ## The forms of pieces -/

/-- The rest of a literal, up to its end and no further. -/
def Quoting.Ends (s : Quoting) (text : List Char) : Prop :=
  text.foldl step s = outside ∧ ∀ ⦃u v⦄, text = u ++ v → v ≠ [] → u.foldl step s ≠ outside

theorem Quoting.Ends.cons {s : Quoting} (hs : s ≠ outside) (h : (s.step c).Ends text) : s.Ends (c :: text) := by
  refine ⟨h.1, fun u v huv hv => ?_⟩
  cases u with
  | nil => exact hs
  | cons d u =>
    obtain ⟨rfl, htext⟩ := List.cons.inj huv
    exact h.2 htext hv

theorem Quoting.Ends.close (q : Quote) : (inside q).Ends [q.char] := by
  have last : (inside q).step q.char = outside := by
    simp [step, q.char_ne_backslash]
  refine ⟨last, fun u v huv hv => ?_⟩
  cases u with
  | nil => rintro ⟨⟩
  | cons d u =>
    exact absurd (append_eq_nil_iff.mp (List.cons.inj huv).2.symm).2 hv

theorem quoted_form {q : Quote} (hq : q ≠ .back) (h : quoted q.char cs = (text, true)) :
    (∃ rest, cs = text ++ rest) ∧ (Quoting.inside q).Ends text := by
  fun_induction quoted q.char cs generalizing text with
  | case1 => cases h
  | case2 => cases h
  | case3 c cs text' closed hrec ih =>
    obtain ⟨rfl, rfl⟩ := Prod.mk.inj h
    obtain ⟨⟨rest, rfl⟩, ends⟩ := ih hrec
    refine ⟨⟨rest, rfl⟩, .cons (by simp) ?_⟩
    simp only [Quoting.step, hq, ne_eq, not_false_eq_true, and_self, if_true]
    exact .cons (by simp) ends
  | case4 => cases h
  | case5 c cs h1 h2 hn hc =>
    obtain rfl : c = q.char := eq_of_beq hc
    obtain ⟨rfl, -⟩ := Prod.mk.inj h
    exact ⟨⟨cs, rfl⟩, .close q⟩
  | case6 c cs h1 h2 hn hc text' closed hrec ih =>
    obtain ⟨rfl, rfl⟩ := Prod.mk.inj h
    obtain ⟨⟨rest, rfl⟩, ends⟩ := ih hrec
    have hback : c ≠ '\\' := by
      rintro rfl
      cases hcs : text' ++ rest with
      | nil => exact h1 rfl hcs
      | cons d ds => exact h2 d ds rfl hcs
    have hquote : c ≠ q.char := by simpa using hc
    refine ⟨⟨rest, rfl⟩, .cons (by simp) ?_⟩
    simpa [Quoting.step, hback, hquote] using ends

theorem rawQuoted_form (h : rawQuoted Quote.back.char cs = some text) :
    (∃ rest, cs = text ++ rest) ∧ (Quoting.inside .back).Ends text := by
  induction cs generalizing text with
  | nil => cases h
  | cons c cs ih =>
    rw [rawQuoted] at h
    split at h
    · rename_i hc
      obtain rfl : c = Quote.back.char := eq_of_beq hc
      obtain rfl := Option.some.inj h
      exact ⟨⟨cs, rfl⟩, .close .back⟩
    · rename_i hc
      obtain ⟨text', htext', rfl⟩ := Option.map_eq_some_iff.mp h
      obtain ⟨⟨rest, rfl⟩, ends⟩ := ih htext'
      have hquote : c ≠ Quote.back.char := by simpa using hc
      refine ⟨⟨rest, rfl⟩, .cons nofun ?_⟩
      simpa [Quoting.step, hquote] using ends

/-- Where a position stands with regard to literals and comments. -/
inductive Scanning where
  | code
  /-- After a slash in code. -/
  | slash
  | literal (s : Quoting)
  | line
  | block
  /-- After a star in a block comment. -/
  | star
deriving DecidableEq

namespace Scanning

def step : Scanning → Char → Scanning
  | code, c =>
    if c = '/' then slash
    else
      match quoteOf? c with
      | some q => literal (.inside q)
      | none => code
  | slash, c =>
    if c = '/' then line
    else if c = '*' then block
    else
      match quoteOf? c with
      | some q => literal (.inside q)
      | none => code
  | literal s, c =>
    match s.step c with
    | .outside => code
    | s => literal s
  | line, c => if c = '\n' then code else line
  | block, c => if c = '*' then star else block
  | star, c => if c = '/' then code else if c = '*' then star else block

/-- The position is in code. -/
def IsCode (s : Scanning) : Prop := s = code ∨ s = slash

instance (s : Scanning) : Decidable s.IsCode := inferInstanceAs (Decidable (_ ∨ _))

/-- The state after a text. -/
def after (cs : List Char) : Scanning := cs.foldl step code

theorem after_append (cs ds : List Char) : after (cs ++ ds) = ds.foldl step (after cs) := by
  simp [after]

/-- The text leads back to code, at its end and not before. -/
def Ends (s : Scanning) (text : List Char) : Prop :=
  text.foldl step s = code ∧ ∀ ⦃u v⦄, text = u ++ v → v ≠ [] → ¬(u.foldl step s).IsCode

theorem Ends.cons (hs : ¬s.IsCode) (h : (s.step c).Ends text) : s.Ends (c :: text) := by
  refine ⟨h.1, fun u v huv hv => ?_⟩
  cases u with
  | nil => exact hs
  | cons d u =>
    obtain ⟨rfl, htext⟩ := List.cons.inj huv
    exact h.2 htext hv

theorem ends_literal {s : Quoting} (h : s.Ends text) (hs : s ≠ .outside) : (literal s).Ends text := by
  induction text generalizing s with
  | nil => exact absurd h.1 hs
  | cons c text ih =>
    refine .cons (by rintro (h | h) <;> cases h) ?_
    rw [step]
    split
    · rename_i hstep
      -- The literal ends here, so nothing is left of the text.
      cases text with
      | nil => exact ⟨rfl, fun u v huv hv => absurd (append_eq_nil_iff.mp huv.symm).2 hv⟩
      | cons d text => exact absurd hstep (h.2 (u := [c]) rfl nofun)
    · rename_i hstep
      refine ih ⟨h.1, fun u v huv hv => ?_⟩ hstep
      exact h.2 (u := c :: u) (by rw [huv]; rfl) hv

end Scanning

theorem commentBody_form (h : commentBody cs = some text) :
    (∃ rest, cs = text ++ rest) ∧ text.getLast? = some '/' ∧ Scanning.block.Ends text ∧
      (text.head? ≠ some '/' → Scanning.star.Ends text) := by
  fun_induction commentBody cs generalizing text with
  | case1 => cases h
  | case2 cs =>
    obtain rfl := Option.some.inj h
    have last : Scanning.star.Ends ['/'] := .cons (by decide)
      ⟨rfl, fun u v huv hv => absurd (append_eq_nil_iff.mp huv.symm).2 hv⟩
    exact ⟨⟨cs, rfl⟩, rfl, .cons (by decide) last, fun _ => .cons (by decide) last⟩
  | case3 c cs hc ih =>
    obtain ⟨text', htext', rfl⟩ := Option.map_eq_some_iff.mp h
    obtain ⟨⟨rest, rfl⟩, hlast, ends, ends'⟩ := ih htext'
    have next : Scanning.Ends (if c = '*' then .star else .block) text' := by
      split
      · rename_i hstar
        refine ends' fun hslash => ?_
        cases text' with
        | nil => cases hslash
        | cons d text' =>
          obtain rfl := Option.some.inj hslash
          exact hc _ hstar rfl
      · exact ends
    refine ⟨⟨rest, rfl⟩, by rw [getLast?_cons, hlast]; rfl, .cons (by decide) next, fun hslash => .cons (by decide) ?_⟩
    have : c ≠ '/' := fun h => hslash (by rw [h]; rfl)
    simpa [Scanning.step, this] using next

/-- A character of a number, in whatever base. -/
def isNumberChar (c : Char) : Bool := isHexDigit c || c ∈ ['_', '.', 'E', '+', '-', 'x', 'X', 'i']

theorem digits_form (cs : List Char) :
    (∃ rest, cs = (digits cs).1 ++ rest) ∧ ∀ x ∈ (digits cs).1, isNumberChar x = true := by
  have exponent : ∀ {c : Char}, (c == 'e' || c == 'E') = true → isNumberChar c = true := by
    intro c hc
    simp only [Bool.or_eq_true, beq_iff_eq] at hc
    rcases hc with rfl | rfl <;> rfl
  fun_induction digits cs with
  | case1 => exact ⟨⟨[], rfl⟩, by simp⟩
  | case2 c cs hc text float hrec ih =>
    rw [hrec] at ih
    obtain ⟨⟨rest, hrest⟩, htext⟩ := ih
    refine ⟨⟨rest, by rw [hrest]; rfl⟩, forall_mem_cons.mpr ⟨?_, htext⟩⟩
    simp only [Bool.or_eq_true, beq_iff_eq] at hc
    rcases hc with hc | rfl
    · simp [isNumberChar, isHexDigit, hc]
    · rfl
  | case3 c cs _ hc ih =>
    obtain ⟨⟨rest, hrest⟩, htext⟩ := ih
    obtain rfl := eq_of_beq hc
    exact ⟨⟨rest, by simpa using hrest⟩, forall_mem_cons.mpr ⟨rfl, htext⟩⟩
  | case4 c _ _ hc cs ih | case5 c _ _ hc cs ih =>
    obtain ⟨⟨rest, hrest⟩, htext⟩ := ih
    refine ⟨⟨rest, by simpa using hrest⟩, forall_mem_cons.mpr ⟨exponent hc, ?_⟩⟩
    exact forall_mem_cons.mpr ⟨rfl, htext⟩
  | case6 c _ _ hc cs _ _ ih =>
    obtain ⟨⟨rest, hrest⟩, htext⟩ := ih
    exact ⟨⟨rest, by simpa using hrest⟩, forall_mem_cons.mpr ⟨exponent hc, htext⟩⟩
  | case7 => exact ⟨⟨_, rfl⟩, by simp⟩

theorem number_form (hc : c.isDigit = true ∨ c = '.') :
    (∃ rest, c :: cs = (number (c :: cs)).2 ++ rest) ∧ (number (c :: cs)).2.head? = some c ∧
      (∀ x ∈ (number (c :: cs)).2, isNumberChar x = true) ∧
      (number (c :: cs)).1 ∈ [.int, .float, .imag] := by
  have based : ∀ {mark : Char} {ds : List Char}, mark = 'x' ∨ mark = 'X' → (∃ rest, '0' :: mark :: ds =
        '0' :: mark :: ds.takeWhile (fun c => isHexDigit c || c == '_') ++ rest) ∧
      ∀ x ∈ '0' :: mark :: ds.takeWhile (fun c => isHexDigit c || c == '_'), isNumberChar x = true := by
    intro mark ds hmark
    refine ⟨⟨ds.dropWhile fun c => isHexDigit c || c == '_', by simp⟩, ?_⟩
    refine forall_mem_cons.mpr ⟨rfl, forall_mem_cons.mpr ⟨?_, fun x hx => ?_⟩⟩
    · rcases hmark with rfl | rfl <;> rfl
    · have := all_eq_true.mp all_takeWhile x hx
      simp only [Bool.or_eq_true, beq_iff_eq] at this
      rcases this with hx | rfl
      · simp [isNumberChar, hx]
      · rfl
  unfold number
  split
  · rename_i ds hds
    obtain ⟨rfl, rfl⟩ := List.cons.inj hds
    exact ⟨(based (.inl rfl)).1, rfl, (based (.inl rfl)).2, by simp⟩
  · rename_i ds hds
    obtain ⟨rfl, rfl⟩ := List.cons.inj hds
    exact ⟨(based (.inr rfl)).1, rfl, (based (.inr rfl)).2, by simp⟩
  · obtain ⟨⟨rest, hrest⟩, htext⟩ := digits_form (c :: cs)
    have hhead : (digits (c :: cs)).1.head? = some c := by
      unfold digits
      rcases hc with hc | rfl
      · simp [hc]
      · rfl
    split
    rename_i text float hdigits
    rw [hdigits] at hrest htext hhead
    split
    · rename_i more hmore
      rw [hrest, drop_left] at hmore
      refine ⟨⟨more, ?_⟩, ?_, ?_, by simp⟩
      · rw [hrest, hmore]
        simp
      · cases text with
        | nil => cases hhead
        | cons => exact hhead
      · exact forall_mem_append.mpr ⟨htext, by simp; rfl⟩
    · exact ⟨⟨rest, hrest⟩, hhead, htext, by cases float <;> simp⟩

/-- What a piece looks like, given what follows it. -/
inductive Piece.Form : Piece → List Char → Prop where
  | newline (rest : List Char) : Form .newline rest
  | blank {c : Char} (gap : c = ' ' ∨ c = '\t' ∨ c = '\r') (rest : List Char) : Form (.blank c) rest
  | lineComment {body rest : List Char} (one : ∀ x ∈ body, x ≠ '\n')
      (follows : ∀ x ∈ rest.head?, x = '\n') : Form (.lineComment ('/' :: '/' :: body)) rest
  | blockComment {body : List Char} (last : body.getLast? = some '/')
      (ends : Scanning.block.Ends body) (rest : List Char) :
      Form (.blockComment ('/' :: '*' :: body)) rest
  | word {c : Char} {tail rest : List Char} (start : isIdentStart c = true)
      (more : ∀ x ∈ tail, isIdentRest x = true) (follows : ∀ x ∈ rest.head?, isIdentRest x = false) :
      Form (.lexeme (wordKind (c :: tail)) (c :: tail)) rest
  | number {kind : TokenKind} {c : Char} {tail : List Char}
      (hkind : kind ∈ [TokenKind.int, .float, .imag]) (start : c.isDigit = true ∨ c = '.')
      (chars : ∀ x ∈ c :: tail, isNumberChar x = true) (rest : List Char) :
      Form (.lexeme kind (c :: tail)) rest
  | literal {q : Quote} {kind : TokenKind} {body : List Char} (hkind : kind ∈ [TokenKind.string, .rune])
      (ends : (Quoting.inside q).Ends body) (rest : List Char) : Form (.lexeme kind (q.char :: body)) rest
  | operator {kind : TokenKind} {text rest : List Char} (hkind : kind = .operator ∨ kind = .semicolon false)
      (known : text ∈ Token.operators.map String.toList)
      (slash : text = ['/'] → ∀ x ∈ rest.head?, x ≠ '/' ∧ x ≠ '*') : Form (.lexeme kind text) rest

theorem quotedPiece_form {q : Quote} (hq : q ≠ .back) {kind : TokenKind} {literal : Enclosed}
    (hkind : kind ∈ [TokenKind.string, .rune]) (h : quotedPiece q.char kind literal cs = .ok p) :
    ∃ rest, q.char :: cs = p.text ++ rest ∧ p.Form rest := by
  rw [quotedPiece] at h
  split at h
  rename_i text closed hquoted
  split at h
  · rename_i hclosed
    subst hclosed
    cases h
    obtain ⟨⟨rest, rfl⟩, ends⟩ := quoted_form hq hquoted
    exact ⟨rest, rfl, .literal hkind ends rest⟩
  · cases h

/-- Where the taking ends. -/
theorem head_dropWhile {q : Char → Bool} : ∀ x ∈ (cs.dropWhile q).head?, q x = false := by
  intro x hx
  have := head?_dropWhile_not q cs
  rw [Option.mem_def.mp hx] at this
  exact this

theorem lexeme_form (comment : c = '/' → ∀ x ∈ cs.head?, x ≠ '/' ∧ x ≠ '*') (h : lexeme c cs = .ok p) :
    ∃ rest, c :: cs = p.text ++ rest ∧ p.Form rest := by
  unfold lexeme at h
  split at h
  · rename_i hstart
    cases h
    refine ⟨cs.dropWhile isIdentRest, by simp [Piece.text], .word hstart ?_ ?_⟩
    · exact all_eq_true.mp all_takeWhile
    · exact head_dropWhile
  · split at h
    · rename_i hnum
      split at h
      rename_i kind text hnumber
      cases h
      have hnum : c.isDigit = true ∨ c = '.' := by
        simp only [Bool.or_eq_true, Bool.and_eq_true, beq_iff_eq] at hnum
        exact hnum.imp_right And.left
      have form := @number_form c cs hnum
      rw [hnumber] at form
      obtain ⟨⟨rest, hrest⟩, hhead, hchars, hkind⟩ := form
      refine ⟨rest, hrest, ?_⟩
      obtain ⟨tail, rfl⟩ := head?_eq_some_iff.mp hhead
      exact .number hkind hnum hchars rest
    · split at h
      · rename_i hc
        obtain rfl : c = Quote.double.char := eq_of_beq hc
        exact quotedPiece_form (q := .double) (by simp) (by simp) h
      · split at h
        · rename_i hc
          obtain rfl : c = Quote.single.char := eq_of_beq hc
          exact quotedPiece_form (q := .single) (by simp) (by simp) h
        · split at h
          · rename_i hc
            obtain rfl : c = Quote.back.char := eq_of_beq hc
            split at h
            · rename_i text htext
              cases h
              obtain ⟨⟨rest, rfl⟩, ends⟩ := rawQuoted_form htext
              exact ⟨rest, rfl, .literal (by simp) ends rest⟩
            · cases h
          · have found : ∀ {text : List Char} {kind : TokenKind}, operator? (c :: cs) = some text →
                (kind = .operator ∨ kind = .semicolon false) →
                ∃ rest, c :: cs = (Piece.lexeme kind text).text ++ rest ∧ (Piece.lexeme kind text).Form rest := by
              intro text kind hop hkind
              have hprefix := find?_some hop
              obtain ⟨rest, hrest⟩ := isPrefixOf_iff_prefix.mp hprefix
              refine ⟨rest, hrest.symm, .operator hkind (mem_of_find?_eq_some hop) ?_⟩
              rintro rfl
              obtain ⟨rfl, rfl⟩ := List.cons.inj hrest
              exact comment rfl
            split at h
            · rename_i hop
              cases h
              exact found hop (.inr rfl)
            · rename_i hop
              cases h
              exact found hop (.inl rfl)
            · cases h

/-- Every piece that is cut off has one of the forms. -/
theorem piece_form (h : piece c cs = .ok p) : ∃ rest, c :: cs = p.text ++ rest ∧ p.Form rest := by
  unfold piece at h
  split at h
  · rename_i hc
    cases h
    obtain rfl := eq_of_beq hc
    exact ⟨cs, rfl, .newline cs⟩
  · rename_i hline
    split at h
    · rename_i hgap
      cases h
      refine ⟨cs, rfl, .blank ?_ cs⟩
      simp only [isGap, Bool.or_eq_true, beq_iff_eq] at hgap hline
      rcases hgap with ((hc | hc) | hc) | hc
      · exact .inl hc
      · exact .inr (.inl hc)
      · exact .inr (.inr hc)
      · exact absurd hc hline
    · split at h
      · rename_i ds _
        cases h
        refine ⟨ds.dropWhile (· != '\n'), by simp [Piece.text], ?_⟩
        refine .lineComment (fun x hx => ?_) fun x hx => ?_
        · simpa using all_eq_true.mp all_takeWhile x hx
        · simpa using head_dropWhile x hx
      · split at h
        · rename_i body hbody
          cases h
          obtain ⟨⟨rest, rfl⟩, hlast, ends, -⟩ := commentBody_form hbody
          exact ⟨rest, rfl, .blockComment hlast ends rest⟩
        · cases h
      · rename_i hslash hstar
        refine lexeme_form ?_ h
        rintro rfl x hx
        obtain ⟨ds, rfl⟩ := head?_eq_some_iff.mp hx
        exact ⟨fun hx => hslash ds rfl (by rw [hx]), fun hx => hstar ds rfl (by rw [hx])⟩

/-! ## A text as pieces -/

def textOf (ps : List Piece) : List Char := ps.flatMap Piece.text

/-- The text consists of these pieces, each followed by the others. -/
inductive Reads : List Char → List Piece → Prop where
  | nil : Reads [] []
  | cons {p : Piece} {rest : List Char} {ps : List Piece} (form : p.Form rest) (more : Reads rest ps) :
      Reads (p.text ++ rest) (p :: ps)

theorem Piece.Form.text_ne_nil (h : p.Form rest) : p.text ≠ [] := by
  cases h with
  | operator _ known _ =>
    have none : ∀ text ∈ Token.operators.map String.toList, text ≠ [] := by decide +kernel
    exact none _ known
  | _ => nofun

theorem Reads.text_eq {ps : List Piece} (h : Reads text ps) : text = textOf ps := by
  induction h with
  | nil => rfl
  | cons form more ih => rw [textOf, flatMap_cons, ih]; rfl

/-- What follows a part of the pieces. -/
theorem Reads.split (h : Reads text (ps1 ++ ps2)) : Reads (textOf ps2) ps2 := by
  induction ps1 generalizing text with
  | nil =>
    have := h.text_eq
    rw [nil_append] at h this
    rwa [← this]
  | cons p ps1 ih =>
    cases h with
    | cons form more => exact ih more

/-- A piece has its form where it stands. -/
theorem Reads.form (h : Reads text (ps1 ++ p :: ps2)) : p.Form (textOf ps2) := by
  have h := h.split
  generalize textOf (p :: ps2) = t at h
  cases h with
  | cons form more =>
    rw [← more.text_eq]
    exact form

theorem lexFrom_eq_drop (skip : Nat) (cs : List Char) : lexFrom skip cs = lexFrom 0 (cs.drop skip) := by
  induction skip generalizing cs with
  | zero => rfl
  | succ skip ih =>
    cases cs with
    | nil => rfl
    | cons c cs => exact ih cs

theorem lex_cons {c : Char} {cs : List Char} (here : piece c cs = .ok p) (whole : c :: cs = p.text ++ rest) :
    lex (c :: cs) = (p :: (lex rest).1, (lex rest).2) := by
  obtain ⟨_, _, form⟩ := piece_form here
  have pos := length_pos_iff.mpr form.text_ne_nil
  have hdrop : cs.drop (p.text.length - 1) = rest := by
    have : (c :: cs).drop p.text.length = rest := by rw [whole, drop_left]
    rwa [show p.text.length = (p.text.length - 1) + 1 by omega, drop_succ_cons] at this
  rw [lex, lexFrom, here]
  simp only
  rw [lexFrom_eq_drop, hdrop]
  rfl

/-- A text is empty, or starts with a fault or a piece. -/
theorem lex_induction {motive : List Char → Prop} (nil : motive [])
    (fault : ∀ {c cs fault}, piece c cs = .error fault → motive (c :: cs))
    (cons : ∀ {c cs p rest}, piece c cs = .ok p → c :: cs = p.text ++ rest → p.Form rest → motive rest → motive (c :: cs))
    (text : List Char) : motive text := by
  induction hlen : text.length using Nat.strongRecOn generalizing text with
  | ind n ih =>
    cases text with
    | nil => exact nil
    | cons c cs =>
      cases here : piece c cs with
      | error => exact fault here
      | ok p =>
        obtain ⟨rest, whole, form⟩ := piece_form here
        have pos := length_pos_iff.mpr form.text_ne_nil
        have shorter : rest.length < n := by
          rw [← hlen, whole, length_append]
          omega
        exact cons here whole form (ih rest.length shorter rest rfl)

/-- A text without fault consists of its pieces. -/
theorem reads_lex {ps : List Piece} (h : lex text = (ps, none)) : Reads text ps := by
  induction text using lex_induction generalizing ps with
  | nil =>
    obtain ⟨rfl, -⟩ := Prod.mk.inj h
    exact .nil
  | fault here =>
    rw [lex, lexFrom, here] at h
    cases h
  | cons here whole form ih =>
    rw [lex_cons here whole] at h
    obtain ⟨rfl, hfault⟩ := Prod.mk.inj h
    rw [whole]
    exact .cons form (ih (Prod.ext rfl hfault))

/-! ## Code and what is not code -/

/-- The inside of the piece is not code. -/
def Piece.hidesCode : Piece → Bool
  | .lineComment _ | .blockComment _ => true
  | .lexeme kind _ => kind == .string || kind == .rune
  | _ => false

namespace Scanning

/-- The piece may start in this state. -/
def Admits (s : Scanning) (p : Piece) : Prop :=
  s = code ∨ (s = slash ∧ ∀ x ∈ p.text.head?, x ≠ '/' ∧ x ≠ '*') ∨ (s = line ∧ p = .newline)

/-- What a piece does to the state: inside, it is code or not (a comment is known
as one only after its second character), and at the end it is code again, save
for a line comment, which ends with the line. -/
structure Crosses (s : Scanning) (p : Piece) : Prop where
  shown : ∀ ⦃u v⦄, p.text = u ++ v → u ≠ [] → v ≠ [] → p.hidesCode = false → (u.foldl step s).IsCode
  hidden : ∀ ⦃u v⦄, p.text = u ++ v → u ≠ [] → v ≠ [] → p.hidesCode = true → (u.foldl step s).IsCode →
    ∃ x ∈ v.head?, x = '/' ∨ x = '*'
  last : p.text.foldl step s = code ∨ (p.text = ['/'] ∧ p.text.foldl step s = slash) ∨
    ((∃ text, p = .lineComment text) ∧ p.text.foldl step s = line)

/-- The first character of a piece other than the newline after a comment. -/
theorem Admits.first (h : s.Admits p) (line : p ≠ .newline) (hc : c ∈ p.text.head?) : s.step c = code.step c := by
  rcases h with rfl | ⟨rfl, hslash⟩ | ⟨-, hnewline⟩
  · rfl
  · obtain ⟨h1, h2⟩ := hslash c hc
    simp [step, h1, h2]
  · exact absurd hnewline line

/-- A character that changes nothing in code. -/
def isQuiet (c : Char) : Bool := (quoteOf? c).isNone && c != '/'

theorem step_of_isQuiet (h : isQuiet c = true) : code.step c = code := by
  obtain ⟨hquote, hslash⟩ : quoteOf? c = none ∧ c ≠ '/' := by simpa [isQuiet] using h
  simp [step, hquote, hslash]

theorem foldl_of_isQuiet (h : ∀ c ∈ cs, isQuiet c = true) : cs.foldl step code = code := by
  induction cs with
  | nil => rfl
  | cons c cs ih =>
    obtain ⟨hc, hcs⟩ := forall_mem_cons.mp h
    rw [foldl_cons, step_of_isQuiet hc, ih hcs]

theorem crosses_of_isQuiet (admits : s.Admits p) (line : p ≠ .newline) (shown : p.hidesCode = false)
    (quiet : ∀ c ∈ p.text, isQuiet c = true) (hne : p.text ≠ []) : s.Crosses p := by
  have all : ∀ {u v : List Char}, p.text = u ++ v → u ≠ [] → u.foldl step s = code := by
    intro u v huv hu
    cases u with
    | nil => exact absurd rfl hu
    | cons c u =>
      rw [huv] at quiet
      rw [foldl_cons, admits.first line (by rw [huv]; rfl)]
      rw [step_of_isQuiet (quiet c (by simp))]
      exact foldl_of_isQuiet fun x hx => quiet x (by simp [hx])
  refine ⟨fun u v huv hu _ _ => .inl (all huv hu), fun u v _ _ _ hides => ?_, .inl (all (append_nil _).symm hne)⟩
  rw [shown] at hides
  cases hides

/-- A piece whose inside is not code, after its opening. -/
theorem crosses_of_ends {s' : Scanning} {opening body : List Char} (hides : p.hidesCode = true)
    (htext : p.text = opening ++ body) (hopen : opening.foldl step s = s') (ends : s'.Ends body)
    (hfirst : ∀ ⦃u v⦄, opening = u ++ v → u ≠ [] → v ≠ [] → ∃ x ∈ v.head?, x = '/' ∨ x = '*') : s.Crosses p := by
  refine ⟨fun u v _ _ _ shown => ?_, fun u v huv hu hv _ hcode => ?_, .inl ?_⟩
  · rw [hides] at shown
    cases shown
  · rw [htext] at huv
    rcases append_eq_append_iff.mp huv with ⟨w, rfl, hbody⟩ | ⟨w, hopening, rfl⟩
    · rw [foldl_append, hopen] at hcode
      exact absurd hcode (ends.2 hbody hv)
    · cases w with
      | nil =>
        rw [append_nil] at hopening
        rw [← hopening, hopen] at hcode
        exact absurd hcode (ends.2 (u := []) rfl (by simpa using hv))
      | cons x w =>
        obtain ⟨y, hy, hxy⟩ := hfirst hopening hu nofun
        exact ⟨y, by simpa using hy, hxy⟩
  · rw [htext, foldl_append, hopen]
    exact ends.1

theorem crosses_lineComment {body : List Char} (one : ∀ x ∈ body, x ≠ '\n') (hopen : s.step '/' = slash) : s.Crosses (.lineComment ('/' :: '/' :: body)) := by
  have stays : ∀ {w : List Char}, (∀ x ∈ w, x ≠ '\n') → w.foldl step line = line := by
    intro w hw
    induction w with
    | nil => rfl
    | cons x w ih =>
      obtain ⟨hx, hw⟩ := forall_mem_cons.mp hw
      rw [foldl_cons, show line.step x = line by simp [step, hx], ih hw]
  have twice : ∀ w : List Char, ('/' :: '/' :: w).foldl step s = w.foldl step line := by
    intro w
    rw [foldl_cons, foldl_cons, hopen]
    rfl
  refine ⟨fun u v _ _ _ shown => (by cases shown), fun u v huv hu hv _ hcode => ?_, .inr (.inr ?_)⟩
  · rcases u with _ | ⟨x, _ | ⟨y, u⟩⟩
    · exact absurd rfl hu
    · obtain rfl : '/' :: body = v := (List.cons.inj huv).2
      exact ⟨'/', rfl, .inl rfl⟩
    · obtain ⟨rfl, htail⟩ := List.cons.inj huv
      obtain ⟨rfl, rfl⟩ := List.cons.inj htail
      rw [twice, stays fun x hx => one x (by simp [hx])] at hcode
      rcases hcode with h | h <;> cases h
  · exact ⟨⟨_, rfl⟩, (twice body).trans (stays one)⟩

theorem crosses_operator {kind : TokenKind} (admits : s.Admits (.lexeme kind text))
    (hkind : kind = .operator ∨ kind = .semicolon false) (known : text ∈ Token.operators.map String.toList) : s.Crosses (.lexeme kind text) := by
  have check : ∀ text ∈ Token.operators.map String.toList, ∀ s ∈ [code, slash],
      (s = slash → text.head? ≠ some '/' ∧ text.head? ≠ some '*') →
      (∀ n ∈ List.range (text.length + 1), ((text.take n).foldl step s).IsCode) ∧
      (text.foldl step s = code ∨ text = ['/'] ∧ text.foldl step s = slash) := by decide +kernel
  have hs : s ∈ [code, slash] ∧ (s = slash → text.head? ≠ some '/' ∧ text.head? ≠ some '*') := by
    rcases admits with rfl | ⟨rfl, hslash⟩ | ⟨-, hnewline⟩
    · exact ⟨by simp, nofun⟩
    · exact ⟨by simp, fun _ => ⟨fun h => (hslash _ h).1 rfl, fun h => (hslash _ h).2 rfl⟩⟩
    · cases hnewline
  obtain ⟨hcode, hlast⟩ := check text known s hs.1 hs.2
  refine ⟨fun u v huv _ _ _ => ?_, fun u v _ _ _ hides => ?_, hlast.imp_right .inl⟩
  · have huv : text = u ++ v := huv
    have := hcode u.length (by
      rw [huv, length_append, mem_range]
      omega)
    rwa [huv, take_left] at this
  · rcases hkind with rfl | rfl <;> cases hides

/-- Every piece crosses its text as it should. -/
theorem Admits.crosses (admits : s.Admits p) (form : p.Form rest) : s.Crosses p := by
  have hne := form.text_ne_nil
  cases form with
  | newline =>
    have last : s.step '\n' = code := by
      rcases admits with rfl | ⟨rfl, -⟩ | ⟨rfl, -⟩ <;> rfl
    refine ⟨fun u v huv hu hv => ?_, fun u v _ _ _ hides => (by cases hides), .inl last⟩
    rcases append_eq_singleton_iff.mp huv.symm with ⟨rfl, -⟩ | ⟨-, rfl⟩
    · exact absurd rfl hu
    · exact absurd rfl hv
  | blank gap =>
    refine crosses_of_isQuiet admits nofun rfl ?_ hne
    rcases gap with rfl | rfl | rfl <;> exact all_eq_true.mp (by decide)
  | word start more =>
    refine crosses_of_isQuiet admits nofun ?_ (forall_mem_cons.mpr ⟨?_, fun x hx => ?_⟩) hne
    · simp only [Piece.hidesCode, wordKind]
      split <;> rfl
    · exact unquoted_of_not (by decide +kernel) start
    · exact unquoted_of_not (by decide +kernel) (more x hx)
  | number hkind start chars =>
    refine crosses_of_isQuiet admits nofun ?_ (fun x hx => ?_) hne
    · simp only [mem_cons, not_mem_nil, or_false] at hkind
      rcases hkind with rfl | rfl | rfl <;> rfl
    · exact unquoted_of_not (by decide +kernel) (chars x hx)
  | operator hkind known slash => exact crosses_operator admits hkind known
  | @literal q kind body hkind ends =>
    have hopen : s.step q.char = .literal (.inside q) := by
      rw [admits.first nofun rfl]
      cases q <;> rfl
    refine crosses_of_ends ?_ (show _ = [q.char] ++ _ from rfl) hopen (ends_literal ends nofun) ?_
    · simp only [mem_cons, not_mem_nil, or_false] at hkind
      rcases hkind with rfl | rfl <;> rfl
    · intro u v huv hu hv
      rcases append_eq_singleton_iff.mp huv.symm with ⟨rfl, -⟩ | ⟨-, rfl⟩
      · exact absurd rfl hu
      · exact absurd rfl hv
  | blockComment last ends =>
    have hopen : ['/', '*'].foldl step s = block := by
      rw [foldl_cons, admits.first nofun rfl]
      rfl
    refine crosses_of_ends rfl (show _ = ['/', '*'] ++ _ from rfl) hopen ends fun u v huv hu hv => ?_
    rcases u with _ | ⟨x, _ | ⟨y, u⟩⟩
    · exact absurd rfl hu
    · obtain rfl : ['*'] = v := (List.cons.inj huv).2
      exact ⟨'*', rfl, .inr rfl⟩
    · have := (List.cons.inj (List.cons.inj huv).2).2
      exact absurd (append_eq_nil_iff.mp this.symm).2 hv
  | lineComment one follows =>
    exact crosses_lineComment one (by rw [admits.first nofun rfl]; rfl)

/-- The piece after a piece may start where that one ends. -/
theorem Crosses.next {p' : Piece} {rest' : List Char} (crosses : s.Crosses p) (form : p.Form rest)
    (form' : p'.Form rest') (hrest : rest = p'.text ++ rest') : (p.text.foldl step s).Admits p' := by
  have hhead : rest.head? = p'.text.head? := by
    obtain ⟨c, cs, hcs⟩ := exists_cons_of_ne_nil form'.text_ne_nil
    rw [hrest, hcs]
    rfl
  rcases crosses.last with hcode | ⟨htext, hslash⟩ | ⟨⟨text, rfl⟩, hline⟩
  · exact .inl hcode
  · refine .inr (.inl ⟨hslash, ?_⟩)
    rw [← hhead]
    cases form with
    | operator _ _ slash => exact slash htext
    | word start =>
      obtain ⟨rfl, -⟩ := List.cons.inj htext
      exact absurd start (by decide +kernel)
    | number _ start =>
      obtain ⟨rfl, -⟩ := List.cons.inj htext
      exact absurd start (by decide)
    | @literal q =>
      exact absurd (List.cons.inj htext).1 (by cases q <;> decide)
    | newline => cases htext
    | blank gap =>
      obtain ⟨rfl, -⟩ := List.cons.inj htext
      exact absurd gap (by decide)
    | lineComment => cases htext
    | blockComment => cases htext
  · refine .inr (.inr ⟨hline, ?_⟩)
    have follows : ∀ x ∈ p'.text.head?, x = '\n' := by
      cases form with
      | lineComment _ follows => rwa [hhead] at follows
    cases form' with
    | newline => rfl
    | blank gap =>
      obtain rfl := follows _ rfl
      exact absurd gap (by decide)
    | lineComment | blockComment => exact absurd (follows _ rfl) (by decide)
    | word start =>
      obtain rfl := follows _ rfl
      exact absurd start (by decide +kernel)
    | number _ start =>
      obtain rfl := follows _ rfl
      exact absurd start (by decide)
    | @literal q => exact absurd (follows _ rfl) (by cases q <;> decide)
    | operator _ known =>
      have none : ∀ text ∈ Token.operators.map String.toList, text.head? ≠ some '\n' ∧ text.head? ≠ none := by
        decide +kernel
      obtain ⟨hnot, hsome⟩ := none _ known
      obtain ⟨x, hx⟩ := Option.ne_none_iff_exists'.mp hsome
      rw [follows x hx] at hx
      exact absurd hx hnot

end Scanning

/-- Every piece of a text starts in a state that admits it. -/
theorem Reads.admits (h : Reads text (ps1 ++ p :: ps2)) (hs : ∀ q ∈ (ps1 ++ p :: ps2).head?, s.Admits q) : ((textOf ps1).foldl Scanning.step s).Admits p := by
  induction ps1 generalizing text s with
  | nil => exact hs p rfl
  | cons q ps1 ih =>
    generalize htail : ps1 ++ p :: ps2 = tail at h
    rw [cons_append, htail] at h
    cases h with
    | cons form more =>
      have crosses := (hs q rfl).crosses form
      rw [textOf, flatMap_cons, foldl_append]
      subst htail
      refine ih more fun q' hq' => ?_
      cases hps : ps1 ++ p :: ps2 with
      | nil => simp at hps
      | cons r rs =>
        rw [hps] at more hq'
        cases more with
        | cons form' =>
          obtain rfl := Option.some.inj hq'
          exact crosses.next form form' rfl

end CheckHandle
