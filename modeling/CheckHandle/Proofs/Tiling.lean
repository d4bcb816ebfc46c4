import CheckHandle.Proofs.Marking

/-!
# Tokens tile a text

Between two lexemes of a text lie blanks, newlines and complete comments. An
automatic semicolon stands there if a line may end after the first of them, and
does. The words `check` and `handle` end no line where markers are read, also as
selectors, and that is all in which the two modes of scanning differ.
-/

namespace CheckHandle

open Text Lexer List

attribute [local simp] Nat.add_assoc

/-! ## What lies between two tokens -/

/-- From `stop` on to the token `b` there are blanks, newlines and complete
comments. The `n` automatic semicolons among them are one if a line may end at
`stop`, and ends there or with the text; and none otherwise. -/
def Separated (cs : List Char) (stop : Nat) (mayEnd : Bool) (n : Nat) (b : Token) : Prop :=
  ∃ before gaps after, cs = before ++ (textOf gaps ++ after) ∧ byteLength before = stop ∧
    byteLength before + byteLength (textOf gaps) = b.span.start ∧
    (∀ u p v, gaps = u ++ p :: v → p.isLexeme = false ∧ p.Form (textOf v ++ after)) ∧
    n = if mayEnd && (decide ('\n' ∈ textOf gaps) || b.kind == .endOfText) then 1 else 0

/-- The tokens are separated, `n` automatic semicolons having been read. -/
def Spaced (quiet : List String) (cs : List Char) (stop : Nat) (mayEnd : Bool) (n : Nat) : List Token → Prop
  | [] => True
  | t :: ts =>
    if t.kind = .semicolon true then Spaced quiet cs stop mayEnd (n + 1) ts
    else Separated cs stop mayEnd n t ∧ Spaced quiet cs t.span.stop (t.endsLine quiet) 0 ts

/-- What has been read of a gap: no line has ended in it, or one semicolon stands
for its end. A comment may have been read up to the end of its line. -/
def Since (mayEnd : Bool) (n : Nat) (pending : Bool) (gap rest : List Char) : Prop :=
  n = 0 ∧ pending = mayEnd ∧ (mayEnd = true → '\n' ∉ gap) ∨
    n = 1 ∧ mayEnd = true ∧ pending = false ∧ ('\n' ∈ gap ∨ ∀ x ∈ rest.head?, x = '\n')

theorem Since.start (mayEnd : Bool) (rest : List Char) : Since mayEnd 0 mayEnd [] rest :=
  .inl ⟨rfl, rfl, fun _ => not_mem_nil⟩

variable {quiet : List String} {cs rest : List Char} {stop n : Nat} {mayEnd pending : Bool} {p : Piece}
  {done gaps ps : List Piece} {a b : Token} {ts autos after : List Token}

/-- **One gap piece.** -/
theorem Since.gap (h : Since mayEnd n pending (textOf gaps) (p.text ++ rest)) (form : p.Form rest)
    (hgap : ∀ kind text, p ≠ .lexeme kind text) :
    if pending && p.breaksLine then Since mayEnd (n + 1) false (textOf (gaps ++ [p])) rest
    else Since mayEnd n pending (textOf (gaps ++ [p])) rest := by
  have broken : p.breaksLine = true → '\n' ∈ p.text ∨ ∀ x ∈ rest.head?, x = '\n' := by
    intro breaks
    cases form with
    | newline => exact .inl mem_cons_self
    | blank => cases breaks
    | lineComment _ follows => exact .inr follows
    | blockComment => exact .inl (by simpa [Piece.breaksLine, Piece.text] using breaks)
    | word | number | literal | operator => exact absurd rfl (hgap _ _)
  have text : textOf (gaps ++ [p]) = textOf gaps ++ p.text := by simp
  rw [text]
  rcases h with ⟨rfl, rfl, unbroken⟩ | ⟨rfl, hend, rfl, broke⟩
  · split
    · rename_i breaks
      rw [Bool.and_eq_true] at breaks
      exact .inr ⟨rfl, breaks.1, rfl, (broken breaks.2).imp_left (mem_append_right _)⟩
    · rename_i goesOn
      refine .inl ⟨rfl, rfl, fun ends => ?_⟩
      rw [ends, Bool.true_and, Bool.not_eq_true] at goesOn
      exact fun mem => (mem_append.mp mem).elim (unbroken ends) (form.unbroken hgap goesOn)
  · refine .inr ⟨rfl, hend, rfl, .inl ?_⟩
    rcases broke with broke | broke
    · exact mem_append_left _ broke
    · obtain ⟨x, xs, hx⟩ := exists_cons_of_ne_nil form.text_ne_nil
      rw [hx] at broke ⊢
      exact mem_append_right _ (mem_cons.mpr (.inl (broke x rfl).symm))

/-- **One token.** It is separated by the gap that has been read. -/
theorem Since.separated (h : Since mayEnd n pending (textOf gaps) (textOf ps)) (reads : Reads cs (done ++ (gaps ++ ps)))
    (bare : ∀ p ∈ gaps, p.isLexeme = false) (start : b.span.start = byteLength (textOf done) + byteLength (textOf gaps))
    (here : b.kind = .endOfText ∧ pending = false ∨ b.kind ≠ .endOfText ∧ ∃ x ∈ (textOf ps).head?, x ≠ '\n') :
    Separated cs (byteLength (textOf done)) mayEnd n b := by
  refine ⟨textOf done, gaps, textOf ps, ?_, rfl, start.symm, fun u p v split => ⟨bare p (by simp [split]), ?_⟩, ?_⟩
  · rw [reads.text_eq, textOf_append, textOf_append]
  · rw [split, append_assoc, cons_append, ← append_assoc] at reads
    simpa using reads.form
  · rcases h with ⟨rfl, rfl, unbroken⟩ | ⟨rfl, rfl, rfl, broke⟩
    · rcases here with ⟨-, rfl⟩ | ⟨other, -⟩
      · rfl
      · cases pending with
        | false => rfl
        | true => simp [unbroken rfl, other]
    · rcases here with ⟨last, -⟩ | ⟨-, x, hx, ne⟩
      · simp [last]
      · have broke := broke.resolve_right fun h => ne (h x hx)
        simp [broke]

theorem scanFrom_spaced (quiet : List String) (done gaps : List Piece) (cut : Cut rest ps)
    (reads : Reads cs (done ++ (gaps ++ ps))) (bare : ∀ p ∈ gaps, p.isLexeme = false)
    (since : Since mayEnd n pending (textOf gaps) rest) :
    Spaced quiet cs (byteLength (textOf done)) mayEnd n
      (scanFrom quiet (byteLength (textOf done) + byteLength (textOf gaps)) pending none ps).tokens := by
  induction cut generalizing done gaps n mayEnd pending with
  | nil =>
    cases pending with
    | false => exact ⟨since.separated reads bare rfl (.inl ⟨rfl, rfl⟩), trivial⟩
    | true =>
      have since : Since mayEnd (n + 1) false (textOf gaps) [] := by
        rcases since with ⟨rfl, rfl, -⟩ | ⟨-, -, ⟨⟩, -⟩
        exact .inr ⟨rfl, rfl, rfl, .inr nofun⟩
      exact ⟨since.separated reads bare rfl (.inl ⟨rfl, rfl⟩), trivial⟩
  | @cons c cs' rest p ps here whole more ih =>
    have form : p.Form rest := by
      rw [more.text_eq]
      have : Reads cs ((done ++ gaps) ++ p :: ps) := by simpa using reads
      exact this.form
    rw [whole] at since
    rcases p.lexeme_or_gap with ⟨kind, text, rfl⟩ | hgap
    · rw [scanFrom_lexeme]
      obtain ⟨auto, last⟩ := form.kind_ne
      have head : ∃ x ∈ (textOf (.lexeme kind text :: ps)).head?, x ≠ '\n' := by
        rw [textOf_cons, ← more.text_eq, ← whole]
        refine ⟨c, rfl, ?_⟩
        rintro rfl
        cases here
      rw [more.text_eq] at since
      rw [Spaced, if_neg auto]
      refine ⟨since.separated reads bare rfl (.inr ⟨last, head⟩), ?_⟩
      have next := ih (done ++ (gaps ++ [.lexeme kind text])) [] (by simpa using reads) nofun
        (.start (Token.endsLine quiet ⟨kind, String.ofList text, {}⟩) rest)
      have stop : byteLength (textOf (done ++ (gaps ++ [.lexeme kind text]))) =
          byteLength (textOf done) + byteLength (textOf gaps) + byteLength text := by
        simp [Piece.text]
      rw [stop] at next
      exact next
    · rw [scanFrom_gap hgap]
      have later := since.gap form hgap
      have gap : p.isLexeme = false := by cases p <;> first | rfl | exact absurd rfl (hgap _ _)
      have bare' : ∀ q ∈ gaps ++ [p], q.isLexeme = false :=
        forall_mem_append.mpr ⟨bare, forall_mem_singleton.mpr gap⟩
      split
      · rename_i breaks
        rw [if_pos breaks] at later
        have next := ih done (gaps ++ [p]) (by simpa using reads) bare' later
        rw [Spaced, if_pos (c := (autoSemicolon _).kind = .semicolon true) rfl]
        simpa using next
      · rename_i goesOn
        rw [if_neg goesOn] at later
        have next := ih done (gaps ++ [p]) (by simpa using reads) bare' later
        simpa using next

theorem Spaced.next (h : Spaced quiet cs stop mayEnd n (autos ++ b :: after)) (real : b.kind ≠ .semicolon true)
    (auto : ∀ s ∈ autos, s.kind = .semicolon true) : Separated cs stop mayEnd (n + autos.length) b := by
  induction autos generalizing n with
  | nil =>
    rw [nil_append, Spaced, if_neg real] at h
    exact h.1
  | cons s autos ih =>
    obtain ⟨hs, auto⟩ := forall_mem_cons.mp auto
    rw [cons_append, Spaced, if_pos hs] at h
    rw [length_cons, Nat.add_comm autos.length, ← Nat.add_assoc]
    exact ih h auto

theorem Spaced.behind {before : List Token} (h : Spaced quiet cs stop mayEnd n (before ++ a :: ts))
    (real : a.kind ≠ .semicolon true) : Spaced quiet cs a.span.stop (a.endsLine quiet) 0 ts := by
  induction before generalizing stop mayEnd n with
  | nil =>
    rw [nil_append, Spaced, if_neg real] at h
    exact h.2
  | cons t before ih =>
    rw [cons_append, Spaced] at h
    split at h
    · exact ih h
    · exact ih h.2

/-- **Tokens tile a text.** They stand in order at their spans, and the last is
the end of the text. Before a token that is written, and the end, lie blanks,
newlines and complete comments, from the last such token on or from the start of
the text, with a semicolon where a line ends that may. -/
theorem scan_tiles {mode : ScanMode} {text : String} {tokens : List Token}
    (h : (scan mode text).toExcept = .ok tokens) :
    tokens.Pairwise (fun a b => a.span.stop ≤ b.span.start) ∧
    (∀ t ∈ tokens, t.StandsIn text.toList) ∧
    tokens.getLast? = some ⟨.endOfText, "", ⟨byteLength text.toList, byteLength text.toList⟩⟩ ∧
    ∀ autos b after, b.kind ≠ .semicolon true → (∀ s ∈ autos, s.kind = .semicolon true) →
      (tokens = autos ++ b :: after → Separated text.toList 0 false autos.length b) ∧
      ∀ before a, tokens = before ++ a :: (autos ++ b :: after) → a.kind ≠ .semicolon true →
        Separated text.toList a.span.stop (a.endsLine mode.quiet) autos.length b := by
  obtain ⟨nofault, rfl⟩ : (scan mode text).fault = none ∧ (scan mode text).tokens = tokens := by
    unfold Scan.toExcept at h
    split at h
    · exact ⟨by assumption, Except.ok.inj h⟩
    · cases h
  have cut : Cut text.toList (lex text.toList).1 := cut_lex (Prod.ext rfl (scanFrom_fault nofault))
  obtain ⟨stand, last⟩ := scan_stands nofault
  refine ⟨(scan_inside mode text).tokens.ordered.2, stand, last, fun autos b after hb auto => ?_⟩
  have spaced : Spaced mode.quiet text.toList 0 false 0 (scan mode text).tokens := by
    have := scanFrom_spaced mode.quiet [] [] cut cut.reads nofun (.start false _)
    rwa [← scanFrom_fault nofault] at this
  refine ⟨fun split => ?_, fun before a split ha => ?_⟩
  · rw [split] at spaced
    simpa using spaced.next hb auto
  · rw [split] at spaced
    simpa using (spaced.behind ha).next hb auto

/-- A comment that ends a line, and the end of the text. -/
theorem scan_tiles_comment : ∃ tokens, (scan .plain "x/*\n*/y").toExcept = .ok tokens ∧
    tokens.map (·.kind) = [.ident, .semicolon true, .ident, .semicolon true, .endOfText] ∧
    Separated "x/*\n*/y".toList 1 true 1 ⟨.ident, "y", ⟨6, 7⟩⟩ := by
  have scanned : (scan .plain "x/*\n*/y").toExcept = .ok [⟨.ident, "x", ⟨0, 1⟩⟩, autoSemicolon 1, ⟨.ident, "y", ⟨6, 7⟩⟩,
      autoSemicolon 7, ⟨.endOfText, "", ⟨7, 7⟩⟩] := by
    decide +kernel
  exact ⟨_, scanned, rfl, ((scan_tiles scanned).2.2.2 [autoSemicolon 1] ⟨.ident, "y", ⟨6, 7⟩⟩ _ nofun
    (by simp [autoSemicolon])).2 [] _ rfl nofun⟩

/-! ## Two modes of scanning -/

/-- The token is one of the words. -/
def Token.isWord (words : List String) (t : Token) : Bool :=
  t.kind == .ident && decide (t.text ∈ words)

/-- The tokens without the automatic semicolons behind the words; `skips` says
that one of these stands before the tokens. -/
def hush (words : List String) (skips : Bool) : List Token → List Token
  | [] => []
  | t :: ts =>
    if skips && t.kind == .semicolon true then hush words false ts
    else t :: hush words (t.isWord words) ts

variable {words : List String} {text : List Char}

theorem Token.endsLine_eq (words : List String) (t : Token) : t.endsLine words = (t.endsLine [] && !t.isWord words) := by
  unfold Token.endsLine Token.isWord
  split <;> simp_all

/-- **All pieces.** Quiet words cost the semicolons behind them, and no others. -/
theorem scanFrom_quiet (words : List String) (reads : Reads text ps) (o : Nat) (pending skips : Bool)
    (h : skips = true → pending = true) :
    (scanFrom words o (pending && !skips) none ps).tokens = hush words skips (scanFrom [] o pending none ps).tokens := by
  induction reads generalizing o pending skips with
  | nil => cases skips <;> cases pending <;> simp_all [scanFrom, hush, autoSemicolon, Token.isWord]
  | @cons p rest ps form more ih =>
    rcases p.lexeme_or_gap with ⟨kind, text, rfl⟩ | hgap
    · have kept : ((Token.mk kind (String.ofList text) ⟨o, o + byteLength text⟩).kind == .semicolon true) = false :=
        beq_eq_false_iff_ne.mpr form.kind_ne.1
      rw [scanFrom_lexeme, scanFrom_lexeme, hush, kept, Bool.and_false, if_neg Bool.false_ne_true, Token.endsLine_eq words]
      refine congrArg _ (ih _ _ _ fun word => ?_)
      simp_all [Token.isWord, Token.endsLine]
    · rw [scanFrom_gap hgap, scanFrom_gap hgap]
      cases skips with
      | true =>
        obtain rfl := h rfl
        rw [Bool.not_true, Bool.and_false, Bool.false_and, if_neg Bool.false_ne_true, Bool.true_and]
        split
        · exact ih _ false false (by simp)
        · exact ih _ true true fun _ => rfl
      | false =>
        rw [Bool.not_false, Bool.and_true]
        split
        · exact congrArg _ (ih _ false false (by simp))
        · simpa using ih _ pending false (by simp)

theorem length_hush_le (words : List String) (skips : Bool) (ts : List Token) : (hush words skips ts).length ≤ ts.length := by
  induction ts generalizing skips with
  | nil => exact Nat.le_refl 0
  | cons t ts ih =>
    rw [hush]
    split
    · exact Nat.le_succ_of_le (ih false)
    · exact Nat.succ_le_succ (ih _)

theorem hush_eq_self_iff (skips : Bool) (ts : List Token) : hush words skips ts = ts ↔
    (skips = true → ∀ t ∈ ts.head?, t.kind ≠ .semicolon true) ∧
      ts.IsChain fun word next => word.isWord words = true → next.kind ≠ .semicolon true := by
  induction ts generalizing skips with
  | nil => simp [hush]
  | cons t ts ih =>
    rw [hush]
    split
    · rename_i dropped
      rw [Bool.and_eq_true, beq_iff_eq] at dropped
      refine iff_of_false (fun same => ?_) fun h => h.1 dropped.1 t rfl dropped.2
      have := length_hush_le words false ts
      rw [same, length_cons] at this
      omega
    · rename_i kept
      rw [Bool.and_eq_true, beq_iff_eq, not_and] at kept
      rw [cons_inj_right, ih, isChain_cons]
      constructor
      · rintro ⟨first, rest⟩
        exact ⟨fun skip u hu => Option.some.inj hu ▸ kept skip, fun u hu word => first word u hu, rest⟩
      · rintro ⟨-, first, rest⟩
        exact ⟨fun word u hu => first u hu word, rest⟩

/-- **Where the modes differ.** Reading markers or not, a scan of a text without
fault gives the same tokens if and only if, where no markers are read, no
automatic semicolon stands right behind a word `check` or `handle`. The fault
of a text is the same in any case. -/
theorem scan_marked_iff (text : String) :
    (scan .marked text).toExcept = (scan .plain text).toExcept ↔
      (scan .plain text).fault ≠ none ∨
      (scan .plain text).tokens.IsChain fun word next =>
        word.isWord ScanMode.marked.quiet = true → next.kind ≠ .semicolon true := by
  have same : (scan .marked text).fault = (scan .plain text).fault :=
    (scanFrom_fault_eq _ _ _ rfl).trans (scanFrom_fault_eq _ _ _ rfl).symm
  unfold Scan.toExcept
  rw [same]
  cases hfault : (scan .plain text).fault with
  | some fault => simp
  | none =>
    have hushed : (scan .marked text).tokens = hush ScanMode.marked.quiet false (scan .plain text).tokens := by
      have tokens := scanFrom_quiet ScanMode.marked.quiet (reads_of_scan hfault) 0 false false nofun
      rwa [← scanFrom_fault hfault] at tokens
    have same : hush ScanMode.marked.quiet false (scan .plain text).tokens = (scan .plain text).tokens ↔ _ :=
      hush_eq_self_iff ..
    simp [hushed, same]

/-- A selector at the end of a line. -/
theorem scan_marked_selector : (∀ k i t, ¬ MarkedAt (scan .plain "x.check\n").tokens k i t) ∧
    (scan .marked "x.check\n").toExcept ≠ (scan .plain "x.check\n").toExcept := by
  have tokens : (scan .plain "x.check\n").tokens = [⟨.ident, "x", ⟨0, 1⟩⟩, ⟨.operator, ".", ⟨1, 2⟩⟩,
      ⟨.ident, "check", ⟨2, 7⟩⟩, autoSemicolon 7, ⟨.endOfText, "", ⟨8, 8⟩⟩] := by
    decide +kernel
  refine ⟨?_, by decide +kernel⟩
  rw [tokens]
  rintro k (_ | _ | _ | _ | _ | _) t ⟨⟨⟩, word, dot⟩
  · cases k <;> cases word
  · cases word
  · cases dot 1 _ rfl rfl
  · cases word
  · cases word

end CheckHandle
