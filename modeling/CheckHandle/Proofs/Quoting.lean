import CheckHandle.Proofs.Matching

/-!
# Quotes

Whether a position of a text is inside a literal is a fold over the text before
it. The grammar reads literals by rules of its own, so it may take for code what
the fold takes for the inside of a literal. But once it does so it never comes
back: whatever literal it reads from there ends inside a literal again. A match
of the whole text has therefore read all its identifiers outside literals.
-/

namespace CheckHandle

open Text List

variable {c x : Char} {q : Quote} {cs text : List Char}

attribute [local simp] Cursor.strip

/-! ## The quoting state -/

inductive Quote where
  | double
  | single
  | back
deriving DecidableEq

def Quote.char : Quote → Char
  | double => '"'
  | single => '\''
  | back => '\x60'

def quoteOf? (c : Char) : Option Quote :=
  if c = '"' then some .double else if c = '\'' then some .single
  else if c = '\x60' then some .back else none

theorem quoteOf?_char (q : Quote) : quoteOf? q.char = some q := by
  cases q <;> rfl

theorem char_of_quoteOf? (h : quoteOf? c = some q) : c = q.char := by
  unfold quoteOf? at h
  split at h
  · cases h
    assumption
  · split at h
    · cases h
      assumption
    · split at h
      · cases h
        assumption
      · cases h

theorem Quote.char_ne_backslash (q : Quote) : q.char ≠ '\\' := by
  cases q <;> decide

theorem Quote.char_injective {e : Quote} (h : q.char = e.char) : q = e := by
  have := quoteOf?_char q
  rw [h, quoteOf?_char] at this
  exact (Option.some.inj this).symm

/-- Where a position stands with regard to literals. -/
inductive Quoting where
  | outside
  | inside (quote : Quote)
  /-- After a backslash inside a literal. -/
  | escaped (quote : Quote)
deriving DecidableEq

namespace Quoting

/-- The state after a character. Nothing is escaped between backquotes. -/
def step : Quoting → Char → Quoting
  | outside, c =>
    match quoteOf? c with
    | some quote => inside quote
    | none => outside
  | inside quote, c =>
    if c = '\\' ∧ quote ≠ .back then escaped quote
    else if c = quote.char then outside
    else inside quote
  | escaped quote, _ => inside quote

/-- The state after a text. -/
def after (cs : List Char) : Quoting := cs.foldl step outside

/-- The position is inside a literal with this quote. -/
def IsIn (quote : Quote) (s : Quoting) : Prop := s = inside quote ∨ s = escaped quote

theorem after_concat (cs : List Char) (c : Char) : after (cs ++ [c]) = (after cs).step c := by
  simp [after]

theorem after_append (cs ds : List Char) : after (cs ++ ds) = ds.foldl step (after cs) := by
  simp [after]

/-- A character that neither opens nor closes a literal nor escapes. -/
def isPlain (c : Char) : Bool := (quoteOf? c).isNone && c != '\\'

theorem isPlain_iff : isPlain c = true ↔ quoteOf? c = none ∧ c ≠ '\\' := by
  simp [isPlain]

theorem ne_char_of_isPlain (h : isPlain c = true) (q : Quote) : c ≠ q.char := by
  rintro rfl
  rw [isPlain_iff, quoteOf?_char] at h
  exact nomatch h.1

/-- Text without quotes and backslashes opens no literal. -/
theorem foldl_outside_of_plain (h : ∀ c ∈ cs, isPlain c = true) : cs.foldl step outside = outside := by
  induction cs with
  | nil => rfl
  | cons c cs ih =>
    obtain ⟨hc, hcs⟩ := forall_mem_cons.mp h
    have : outside.step c = outside := by simp only [step, (isPlain_iff.mp hc).1]
    rw [foldl_cons, this, ih hcs]

/-- Text without quotes and backslashes closes no literal. -/
theorem foldl_ne_outside_of_plain (h : ∀ c ∈ cs, isPlain c = true) {s : Quoting} (hs : s ≠ outside) : cs.foldl step s ≠ outside := by
  induction cs generalizing s with
  | nil => exact hs
  | cons c cs ih =>
    obtain ⟨hc, hcs⟩ := forall_mem_cons.mp h
    refine ih hcs ?_
    cases s with
    | outside => exact absurd rfl hs
    | inside q => simp [step, (isPlain_iff.mp hc).2, ne_char_of_isPlain hc q]
    | escaped q => nofun

/-- Only a backslash escapes. -/
theorem getLast?_of_escaped (h : after cs = escaped q) : cs.getLast? = some '\\' := by
  rcases eq_nil_or_concat cs with rfl | ⟨ds, c, rfl⟩
  · cases h
  · rw [concat_eq_append] at h ⊢
    rw [after_concat] at h
    cases hs : after ds with
    | outside =>
      rw [hs, step] at h
      split at h <;> cases h
    | inside q' =>
      rw [hs, step] at h
      split at h
      · rename_i hc
        rw [getLast?_concat, hc.1]
      · split at h <;> cases h
    | escaped q' =>
      rw [hs] at h
      cases h

section Foreign

variable {s : Quoting} {e : Quote}

/-- A character other than the quote `e` opens no literal with it. -/
theorem not_isIn_step (hs : ¬s.IsIn e) (hc : c ≠ e.char) : ¬(s.step c).IsIn e := by
  cases s with
  | outside =>
    rw [step]
    split
    · rename_i q hq
      rintro (h | h)
      · cases h
        exact hc (char_of_quoteOf? hq)
      · cases h
    · nofun
  | inside q =>
    have hq : q ≠ e := fun h => hs (.inl (by rw [h]))
    rw [step]
    split
    · rintro (h | h)
      · cases h
      · cases h
        exact hq rfl
    · split
      · nofun
      · exact hs
  | escaped q =>
    have hq : q ≠ e := fun h => hs (.inr (by rw [h]))
    rintro (h | h)
    · cases h
      exact hq rfl
    · cases h

/-- Inside another literal, no character opens one with the quote `e`. -/
theorem not_isIn_step_of_ne_outside (hs : ¬s.IsIn e) (hout : s ≠ outside) : ¬(s.step c).IsIn e := by
  by_cases hc : c = e.char
  · subst hc
    cases s with
    | outside => exact absurd rfl hout
    | inside q =>
      have hq : q ≠ e := fun h => hs (.inl (by rw [h]))
      have hne : e.char ≠ q.char := fun h => hq (Quote.char_injective h.symm)
      simpa [step, e.char_ne_backslash, hne] using hs
    | escaped q =>
      have hq : q ≠ e := fun h => hs (.inr (by rw [h]))
      simpa [step, IsIn] using hq
  · exact not_isIn_step hs hc

theorem step_backslash_ne_outside (hout : s ≠ outside) : s.step '\\' ≠ outside := by
  cases s with
  | outside => exact absurd rfl hout
  | inside q => cases q <;> decide
  | escaped q => nofun

/-- The quote that opens a literal of the grammar inside another literal closes
that one, or it is foreign to it. -/
theorem not_isIn_of_opening (hout : s ≠ outside) (hesc : ∀ q, s ≠ escaped q) : ¬(s.step e.char).IsIn e := by
  cases s with
  | outside => exact absurd rfl hout
  | inside q =>
    by_cases hq : q = e
    · subst hq
      simp [step, q.char_ne_backslash, IsIn]
    · have hne : e.char ≠ q.char := fun h => hq (Quote.char_injective h.symm)
      simp [step, e.char_ne_backslash, hne, IsIn, hq]
  | escaped q => exact absurd rfl (hesc q)

/-- The quote that closes a literal of the grammar does not lead out of a
foreign one, and opens one outside. -/
theorem ne_outside_of_closing (hs : ¬s.IsIn e) : s.step e.char ≠ outside := by
  cases s with
  | outside => simp [step, quoteOf?_char]
  | inside q =>
    have hq : q ≠ e := fun h => hs (.inl (by rw [h]))
    have hne : e.char ≠ q.char := fun h => hq (Quote.char_injective h.symm)
    simp [step, e.char_ne_backslash, hne]
  | escaped q => nofun

end Foreign

end Quoting

/-! ## Classes of characters -/

/-- A character with which the grammar continues an identifier. -/
def isWordChar (c : Char) : Bool := CharClass.alphabetic.contains c || CharClass.decimal.contains c || c == '_'

/-- The characters that are blank. -/
def blanks : List Char :=
  [0x9, 0xA, 0xB, 0xC, 0xD, 0x20, 0x85, 0xA0, 0x1680, 0x2000, 0x2001, 0x2002, 0x2003, 0x2004, 0x2005, 0x2006, 0x2007,
    0x2008, 0x2009, 0x200A, 0x2028, 0x2029, 0x202F, 0x205F, 0x3000].map Char.ofNat

theorem isBlank_of_not {q : Char → Bool} (none : blanks.any q = false) (h : q c = true) : isBlank c = false := by
  cases hc : isBlank c with
  | false => rfl
  | true =>
    have : c ∈ blanks := by
      rw [← Char.ofNat_toNat c]
      refine mem_map_of_mem ?_
      simp only [isBlank, inRanges, blankRanges, any_cons, any_nil, Bool.or_false,
        Bool.or_eq_true, Bool.and_eq_true, decide_eq_true_eq] at hc
      simp only [mem_cons, not_mem_nil, or_false]
      omega
    exact absurd h (any_eq_false.mp none c this)

theorem isBlank_of_isWordChar (h : isWordChar c = true) : isBlank c = false :=
  isBlank_of_not (by decide +kernel) h

theorem unquoted_of_not {q : Char → Bool} {other : Char} (none : ['"', '\'', '\x60', other].any q = false)
    (h : q c = true) : ((quoteOf? c).isNone && c != other) = true := by
  cases hc : (quoteOf? c).isNone && c != other with
  | true => rfl
  | false =>
    have : c ∈ ['"', '\'', '\x60', other] := by
      cases hq : quoteOf? c with
      | none => simp_all
      | some q =>
        rw [char_of_quoteOf? hq]
        cases q <;> simp [Quote.char]
    exact absurd h (any_eq_false.mp none c this)

theorem isPlain_of_isWordChar (h : isWordChar c = true) : Quoting.isPlain c = true :=
  unquoted_of_not (by decide +kernel) h

theorem isPlain_of_charClass {charClass : CharClass} (h : charClass.contains c = true) : Quoting.isPlain c = true :=
  unquoted_of_not (by cases charClass <;> decide +kernel) h

theorem trim_eq_self (h : ∀ c ∈ cs, isBlank c = false) : trim cs = cs := by
  have start : ∀ {ds : List Char}, (∀ c ∈ ds, isBlank c = false) → ds.dropWhile isBlank = ds := by
    intro ds hds
    cases ds with
    | nil => rfl
    | cons d ds => rw [dropWhile_cons, hds d mem_cons_self]; rfl
  rw [trim, trimStart, start h, trimEnd, start (by simpa using h), reverse_reverse]

/-! ## Matching a token -/

/-- Some text leads from one cursor to another. -/
structure Cursor.Moves (c c' : Cursor) (text : List Char) : Prop where
  rest : c.rest = text ++ c'.rest
  offset : c'.offset = c.offset + byteLength text

variable {call : RuleMatcher} {p : Pattern} {c c' : Cursor} {f f' : Furthest} {ts : List Tree}

namespace Pattern

variable {q : Pattern}

theorem run_seq (h : (seq p q).run call true c f = .matched c' ts f') : ∃ c1 ts1 f1 ts2,
    p.run call true c f = .matched c1 ts1 f1 ∧ q.run call true c1 f1 = .matched c' ts2 f' := by
  rw [run] at h
  split at h
  · cases h
  · rename_i c1 ts1 f1 hp
    split at h
    · cases h
    · rename_i hq
      cases h
      exact ⟨c1, ts1, f1, _, hp, hq⟩

theorem run_alt (h : (alt p q).run call true c f = .matched c' ts f') :
    p.run call true c f = .matched c' ts f' ∨ ∃ f1, q.run call true c f1 = .matched c' ts f' := by
  rw [run] at h
  split at h
  · exact .inr ⟨_, h⟩
  · rename_i hp
    cases h
    exact .inl hp

theorem run_not (h : (not p).run call true c f = .matched c' ts f') :
    c' = c ∧ ∃ f1, p.run call true c f = .failed f1 := by
  rw [run] at h
  split at h
  · rename_i hp
    cases h
    exact ⟨rfl, _, hp⟩
  · cases h

theorem run_lit (h : (lit text).run call true c f = .matched c' ts f') : c.strip text = some c' := by
  rw [run] at h
  split at h
  · rename_i hstrip
    cases h
    exact hstrip
  · cases h

theorem run_any (h : any.run call true c f = .matched c' ts f') : ∃ x, c.Moves c' [x] := by
  rw [run] at h
  split at h
  · rename_i x rest hrest
    cases h
    exact ⟨x, by simp [hrest], by simp⟩
  · cases h

/-- What each round of a repetition keeps, the repetition keeps. -/
theorem run_star {I : Cursor → Prop} (round : ∀ {c c' : Cursor} {f f' : Furthest} {ts : List Tree}, I c →
      p.run call true c f = .matched c' ts f' → I c')
    (hc : I c) (h : (star p).run call true c f = .matched c' ts f') : I c' := by
  obtain ⟨_, _, _, matched, rounds⟩ := p.star_rounds call true c f
  cases matched.symm.trans h
  clear matched h
  generalize hskip : false = skip at rounds
  induction rounds with
  | done => exact hc
  | last one =>
    subst hskip
    exact round hc one
  | more one _ ih =>
    subst hskip
    exact ih (round hc one) rfl

/-- The pattern reads fixed texts with such characters and characters of such
classes only. -/
def readsOnly (q : Char → Bool) (classes : CharClass → Bool) : Pattern → Bool
  | .lit text => text.all q
  | .one charClass => classes charClass
  | .any | .rule _ => false
  | .seq p p' | .alt p p' => p.readsOnly q classes && p'.readsOnly q classes
  | .opt p | .star p => p.readsOnly q classes
  | _ => true

end Pattern

theorem Cursor.Moves.refl (c : Cursor) : c.Moves c [] := ⟨rfl, rfl⟩

theorem Cursor.Moves.trans {c'' : Cursor} {text' : List Char} (h : c.Moves c' text) (h' : c'.Moves c'' text') :
    c.Moves c'' (text ++ text') :=
  ⟨by rw [h.rest, h'.rest, append_assoc],
    by rw [h'.offset, h.offset, byteLength_append, Nat.add_assoc]⟩

theorem Cursor.moves_of_strip (h : c.strip text = some c') : c.Moves c' text := by
  unfold Cursor.strip at h
  split at h
  · rename_i hprefix
    cases h
    obtain ⟨rest, hrest⟩ := isPrefixOf_iff_prefix.mp hprefix
    refine ⟨?_, rfl⟩
    rw [← hrest]
    simp
  · cases h

theorem Pattern.run_readsOnly {q : Char → Bool} {classes : CharClass → Bool}
    (hclasses : ∀ {charClass}, classes charClass = true → ∀ {x}, charClass.contains x = true → q x = true)
    (only : p.readsOnly q classes = true) (h : p.run call true c f = .matched c' ts f') :
    ∃ text, c.Moves c' text ∧ ∀ x ∈ text, q x = true := by
  induction p generalizing c c' f f' ts with
  | empty =>
    cases h
    exact ⟨[], .refl c, nofun⟩
  | lit text => exact ⟨text, Cursor.moves_of_strip (run_lit h), all_eq_true.mp only⟩
  | one charClass =>
    rw [Pattern.run] at h
    split at h
    · rename_i x rest hrest
      split at h
      · rename_i hx
        cases h
        exact ⟨[x], ⟨by simp [hrest], by simp⟩, by simpa using hclasses only hx⟩
      · cases h
    · cases h
  | any | rule => cases only
  | start | finish =>
    rw [Pattern.run] at h
    split at h
    · cases h
      exact ⟨[], .refl c, nofun⟩
    · cases h
  | seq p p' ih ih' =>
    obtain ⟨only, only'⟩ := (Bool.and_eq_true _ _).mp only
    obtain ⟨c1, _, _, _, hp, hp'⟩ := run_seq h
    obtain ⟨text, moves, htext⟩ := ih only hp
    obtain ⟨text', moves', htext'⟩ := ih' only' hp'
    exact ⟨text ++ text', moves.trans moves', forall_mem_append.mpr ⟨htext, htext'⟩⟩
  | alt p p' ih ih' =>
    obtain ⟨only, only'⟩ := (Bool.and_eq_true _ _).mp only
    rcases run_alt h with h | ⟨_, h⟩
    · exact ih only h
    · exact ih' only' h
  | opt p ih =>
    rw [Pattern.run] at h
    split at h
    · cases h
      exact ⟨[], .refl c, nofun⟩
    · rename_i hp
      cases h
      exact ih only hp
  | star p ih =>
    refine run_star (I := fun c' => ∃ text, c.Moves c' text ∧ ∀ x ∈ text, q x = true) ?_ ⟨[], .refl c, nofun⟩ h
    rintro c1 c2 f1 f2 ts' ⟨text, moves, htext⟩ hp
    obtain ⟨text', moves', htext'⟩ := ih only hp
    exact ⟨text ++ text', moves.trans moves', forall_mem_append.mpr ⟨htext, htext'⟩⟩
  | not p _ =>
    obtain ⟨rfl, -⟩ := run_not h
    exact ⟨[], .refl _, nofun⟩

namespace Pattern

/-- One character of a word, or none. -/
theorem run_identRest (call : RuleMatcher) (c : Cursor) (f : Furthest) :
    (∃ x rest, c.rest = x :: rest ∧ isWordChar x = true ∧
      identRest.run call true c f = .matched ⟨c.offset + x.utf8Size, rest⟩ [] f) ∨
    (∀ x ∈ c.rest.head?, isWordChar x = false) ∧ identRest.run call true c f = .failed f := by
  obtain ⟨offset, rest⟩ := c
  cases rest with
  | nil => exact .inr ⟨nofun, by simp [identRest, oneOf, run, text]⟩
  | cons x rest =>
    simp only [identRest, oneOf, run, text]
    cases halpha : CharClass.alphabetic.contains x with
    | true => exact .inl ⟨x, rest, rfl, by simp [isWordChar, halpha], by simp⟩
    | false =>
      cases hdec : CharClass.decimal.contains x with
      | true => exact .inl ⟨x, rest, rfl, by simp [isWordChar, hdec], by simp⟩
      | false =>
        by_cases hx : x = '_'
        · subst hx
          exact .inl ⟨'_', rest, rfl, by decide, by simp [byteLength]⟩
        · refine .inr ⟨by simp [isWordChar, halpha, hdec, hx], ?_⟩
          simp [Ne.symm hx]

/-- No character of a word follows. -/
theorem run_not_identRest (h : (not identRest).run call true c f = .matched c' ts f') :
    ∀ x ∈ c'.rest.head?, isWordChar x = false := by
  obtain ⟨rfl, f1, hfailed⟩ := run_not h
  rcases run_identRest call c' f with ⟨_, _, _, _, hmatched⟩ | ⟨hnone, -⟩
  · rw [hmatched] at hfailed
    cases hfailed
  · exact hnone

/-- Words are read to their end. The bound on the rounds is what is left, so it
never cuts them off. -/
theorem run_star_identRest (h : (star identRest).run call true c f = .matched c' ts f') :
    ∀ x ∈ c'.rest.head?, isWordChar x = false := by
  have rounds : ∀ {bound : List Char} {c : Cursor} {ts : List Tree}, bound.length = c.rest.length →
      repeatMatch (identRest.run call true) false bound c f = .matched c' ts f' →
      ∀ x ∈ c'.rest.head?, isWordChar x = false := by
    intro bound
    induction bound with
    | nil =>
      intro c ts hlen h
      have hrest : c.rest = [] := eq_nil_of_length_eq_zero hlen.symm
      rw [repeatMatch] at h
      rcases run_identRest call c f with ⟨_, _, hx, _⟩ | ⟨hnone, hfailed⟩
      · rw [hrest] at hx
        cases hx
      · simp only [Bool.false_eq_true, if_false, hfailed] at h
        cases h
        exact hnone
    | cons b bound ih =>
      intro c ts hlen h
      rw [repeatMatch] at h
      rcases run_identRest call c f with ⟨x, rest, hx, -, hmatched⟩ | ⟨hnone, hfailed⟩
      · have size := x.utf8Size_pos
        simp only [Bool.false_eq_true, if_false, hmatched] at h
        rw [if_neg (by omega)] at h
        split at h
        · cases h
        · rename_i hmore
          cases h
          refine ih ?_ hmore
          rw [hx] at hlen
          simpa using hlen
      · simp only [Bool.false_eq_true, if_false, hfailed] at h
        cases h
        exact hnone
  rw [run] at h
  rcases run_identRest call c f with ⟨x, rest, hx, -, hmatched⟩ | ⟨hnone, hfailed⟩
  · have size := x.utf8Size_pos
    simp only [hmatched] at h
    rw [if_neg (by omega)] at h
    split at h
    · cases h
    · rename_i hmore
      cases h
      rw [Bool.not_true] at hmore
      exact rounds (c := ⟨_, rest⟩) rfl hmore
  · simp only [hfailed] at h
    cases h
    exact hnone

/-- What a sequence ends with. -/
def last : Pattern → Pattern
  | .seq _ q => q.last
  | p => p

theorem run_last {inToken : Bool} (h : p.run call inToken c f = .matched c' ts f') :
    ∃ c1 f1 ts1, p.last.run call inToken c1 f1 = .matched c' ts1 f' := by
  induction p generalizing c f ts with
  | seq p q _ ih =>
    rw [run] at h
    split at h
    · cases h
    · split at h
      · cases h
      · rename_i hq
        cases h
        exact ih hq
  | _ => exact ⟨c, f, ts, h⟩

end Pattern

variable {r : Rule} {pre : List Char}

/-- Words and numbers hold no quote and no backslash. -/
theorem Rule.word_plain (token : r.isToken = true) (quoted : r ≠ .runeLit ∧ r ≠ .stringLit)
    (h : r.body.run call true c f = .matched c' ts f') :
    ∃ text, c.Moves c' text ∧ ∀ x ∈ text, Quoting.isPlain x = true := by
  have only : r.body.readsOnly Quoting.isPlain (fun _ => true) = true := by
    cases r
    all_goals first
      | exact absurd rfl quoted.1
      | exact absurd rfl quoted.2
      | rfl
      | cases token
  exact Pattern.run_readsOnly (fun _ _ => isPlain_of_charClass) only h

/-- Identifiers hold characters of words only. -/
theorem Rule.ident_reads (h : Rule.ident.body.run call true c f = .matched c' ts f') :
    ∃ text, c.Moves c' text ∧ ∀ x ∈ text, isWordChar x = true := by
  have only : Rule.ident.body.readsOnly isWordChar (fun k => k == .alphabetic || k == .decimal) = true := by
    decide +kernel
  have classes : ∀ {k : CharClass}, (k == .alphabetic || k == .decimal) = true →
      ∀ {x : Char}, k.contains x = true → isWordChar x = true := by
    intro k hk x hx
    cases k with
    | alphabetic => simp [isWordChar, hx]
    | decimal => simp [isWordChar, hx]
    | _ => cases hk
  exact Pattern.run_readsOnly classes only h

/-- Words and numbers end before a character that is not one of a word. -/
theorem Rule.word_ends (token : r.isToken = true) (quoted : r ≠ .runeLit ∧ r ≠ .stringLit)
    (h : r.body.run call true c f = .matched c' ts f') :
    ∀ x ∈ c'.rest.head?, isWordChar x = false := by
  obtain ⟨_, _, _, hlast⟩ := Pattern.run_last h
  have ends : r.body.last = .not Pattern.identRest ∨ r.body.last = .star Pattern.identRest := by
    cases r
    all_goals first
      | exact absurd rfl quoted.1
      | exact absurd rfl quoted.2
      | exact .inl rfl
      | exact .inr rfl
      | cases token
  rcases ends with ends | ends
  · rw [ends] at hlast
    exact Pattern.run_not_identRest hlast
  · rw [ends] at hlast
    exact Pattern.run_star_identRest hlast

/-! ## Literals of the grammar -/

/-- Before the cursor lies `pre`, and nothing of the text is skipped. -/
structure Cursor.Behind (text pre : List Char) (c : Cursor) : Prop where
  split : text = pre ++ c.rest
  offset : c.offset = byteLength pre

theorem Cursor.Behind.moves {read : List Char} (h : c.Behind text pre) (moves : c.Moves c' read) :
    c'.Behind text (pre ++ read) :=
  ⟨by rw [h.split, moves.rest, append_assoc],
    by rw [moves.offset, h.offset, byteLength_append]⟩

theorem Cursor.Behind.unique {pre' : List Char} (h : c.Behind text pre) (h' : c.Behind text pre') : pre = pre' :=
  append_cancel_right (h.split.symm.trans h'.split)

/-- Backslashes stand inside literals only. -/
def Tidy (text : List Char) : Prop := ∀ ⦃pre rest⦄, text = pre ++ '\\' :: rest → Quoting.after pre ≠ .outside

/-- The cursor is not inside a literal with the quote `e`. -/
def Cursor.Foreign (text : List Char) (e : Quote) (c : Cursor) : Prop :=
  ∃ pre, c.Behind text pre ∧ ¬(Quoting.after pre).IsIn e

section Literals

variable {e : Quote}

/-- Any character but the quote. -/
theorem Cursor.Foreign.step (h : c.Foreign text e) (moves : c.Moves c' [x]) (hx : x ≠ e.char) : c'.Foreign text e := by
  obtain ⟨pre, behind, hpre⟩ := h
  refine ⟨pre ++ [x], behind.moves moves, ?_⟩
  rw [Quoting.after_concat]
  exact Quoting.not_isIn_step hpre hx

/-- An escape, of whatever character. -/
theorem Cursor.Foreign.escape (tidy : Tidy text) (h : c.Foreign text e) {c1 : Cursor} (moves : c.Moves c1 ['\\'])
    (moves' : c1.Moves c' [x]) : c'.Foreign text e := by
  obtain ⟨pre, behind, hpre⟩ := h
  have hout : Quoting.after pre ≠ .outside := tidy (by rw [behind.split, moves.rest]; rfl)
  refine ⟨pre ++ ['\\'] ++ [x], (behind.moves moves).moves moves', ?_⟩
  rw [Quoting.after_concat, Quoting.after_concat]
  exact Quoting.not_isIn_step_of_ne_outside (Quoting.not_isIn_step_of_ne_outside hpre hout)
    (Quoting.step_backslash_ne_outside hout)

/-- A character that is none of these texts. -/
theorem moves_of_not_any (h : (Pattern.seq (.not p) .any).run call true c f = .matched c' ts f') :
    ∃ x f1, c.Moves c' [x] ∧ p.run call true c f = .failed f1 := by
  obtain ⟨c1, _, _, _, hnot, hany⟩ := Pattern.run_seq h
  obtain ⟨rfl, f1, hfailed⟩ := Pattern.run_not hnot
  obtain ⟨x, moves⟩ := Pattern.run_any hany
  exact ⟨x, f1, moves, hfailed⟩

theorem head_ne_of_failed {y : Char} {rest : List Char} {f1 : Furthest} (hrest : c.rest = y :: rest)
    (h : (Pattern.lit [x]).run call true c f = .failed f1) : y ≠ x := by
  rintro rfl
  rw [Pattern.run] at h
  simp [hrest] at h

theorem run_alt_failed {p q : Pattern} {f1 : Furthest} (h : (Pattern.alt p q).run call true c f = .failed f1) :
    ∃ f2 f3, p.run call true c f = .failed f2 ∧ q.run call true c f2 = .failed f3 := by
  rw [Pattern.run] at h
  split at h
  · rename_i hp
    exact ⟨_, _, hp, h⟩
  · cases h

/-- The cursor moves on, and a foreign literal stays foreign. -/
structure Cursor.Keeps (text : List Char) (e : Quote) (c c' : Cursor) : Prop where
  moves : ∃ read, c.Moves c' read
  foreign : c.Foreign text e → c'.Foreign text e

theorem Cursor.Keeps.refl : c.Keeps text e c := ⟨⟨[], .refl c⟩, id⟩

theorem Cursor.Keeps.trans {c'' : Cursor} (h : c.Keeps text e c') (h' : c'.Keeps text e c'') : c.Keeps text e c'' :=
  have ⟨_, moves⟩ := h.moves
  have ⟨_, moves'⟩ := h'.moves
  ⟨⟨_, moves.trans moves'⟩, h'.foreign ∘ h.foreign⟩

theorem keeps_star (round : ∀ {c c' : Cursor} {f f' : Furthest} {ts : List Tree},
      p.run call true c f = .matched c' ts f' → c.Keeps text e c')
    (h : (Pattern.star p).run call true c f = .matched c' ts f') : c.Keeps text e c' :=
  Pattern.run_star (I := fun c' => c.Keeps text e c') (fun keeps hp => keeps.trans (round hp)) .refl h

/-- Any character but the quote. -/
theorem keeps_other (h : (Pattern.seq (.not (.lit [e.char])) .any).run call true c f = .matched c' ts f') :
    c.Keeps text e c' := by
  obtain ⟨x, _, moves, hfailed⟩ := moves_of_not_any h
  exact ⟨⟨_, moves⟩, fun foreign => foreign.step moves (head_ne_of_failed moves.rest hfailed)⟩

theorem keeps_escape (tidy : Tidy text) (h : (Pattern.seq (.lit ['\\']) .any).run call true c f = .matched c' ts f') :
    c.Keeps text e c' := by
  obtain ⟨c1, _, _, _, hlit, hany⟩ := Pattern.run_seq h
  have moves := Cursor.moves_of_strip (Pattern.run_lit hlit)
  obtain ⟨x, moves'⟩ := Pattern.run_any hany
  exact ⟨⟨_, moves.trans moves'⟩, fun foreign => foreign.escape tidy moves moves'⟩

/-- What a rule for a literal reads: a quote, then what keeps a literal with
another quote, then the quote again. -/
def ReadsLiteral (text : List Char) (c c' : Cursor) : Prop :=
  ∃ (e : Quote) (c₁ c₂ : Cursor), c.Moves c₁ [e.char] ∧ c₁.Keeps text e c₂ ∧ c₂.Moves c' [e.char]

/-- A quote, a body and the quote again. -/
theorem readsLiteral_of_body {body : Pattern} (keeps : ∀ {c c' : Cursor} {f f' : Furthest} {ts : List Tree},
      body.run call true c f = .matched c' ts f' → c.Keeps text e c')
    (h : (Pattern.seq (.lit [e.char]) (.seq body (.lit [e.char]))).run call true c f
      = .matched c' ts f') : ReadsLiteral text c c' := by
  obtain ⟨c1, _, _, _, hopen, hrest⟩ := Pattern.run_seq h
  obtain ⟨c2, _, _, _, hbody, hclose⟩ := Pattern.run_seq hrest
  exact ⟨e, c1, c2, Cursor.moves_of_strip (Pattern.run_lit hopen), keeps hbody,
    Cursor.moves_of_strip (Pattern.run_lit hclose)⟩

theorem readsLiteral_of_rune (tidy : Tidy text)
    (h : Rule.runeLit.body.run call true c f = .matched c' ts f') : ReadsLiteral text c c' := by
  refine readsLiteral_of_body (e := .single) (fun hbody => ?_) h
  rcases Pattern.run_alt hbody with h | ⟨_, h⟩
  · obtain ⟨c1, _, _, _, hlit, hrest⟩ := Pattern.run_seq h
    obtain ⟨c2, _, _, _, hany, hstar⟩ := Pattern.run_seq hrest
    have moves := Cursor.moves_of_strip (Pattern.run_lit hlit)
    obtain ⟨x, moves'⟩ := Pattern.run_any hany
    have escape : Cursor.Keeps text .single _ c2 :=
      ⟨⟨_, moves.trans moves'⟩, fun foreign => foreign.escape tidy moves moves'⟩
    exact escape.trans (keeps_star keeps_other hstar)
  · exact keeps_other h

theorem readsLiteral_of_string (tidy : Tidy text)
    (h : Rule.stringLit.body.run call true c f = .matched c' ts f') : ReadsLiteral text c c' := by
  rcases Pattern.run_alt h with h | ⟨_, h⟩
  · refine readsLiteral_of_body (e := .double) (fun hbody => keeps_star (fun hround => ?_) hbody) h
    rcases Pattern.run_alt hround with h | ⟨_, h⟩
    · exact keeps_escape tidy h
    · obtain ⟨x, _, moves, hfailed⟩ := moves_of_not_any h
      obtain ⟨_, _, hquote, -⟩ := run_alt_failed hfailed
      exact ⟨⟨_, moves⟩, fun foreign => foreign.step moves (head_ne_of_failed moves.rest hquote)⟩
  · exact readsLiteral_of_body (e := .back) (fun hbody => keeps_star keeps_other hbody) h

/-! ## Reading outside literals -/

/-- What holds of a cursor of the grammar: no backslash lies behind it, and it
is not in the middle of a word. -/
def Cursor.Between (text : List Char) (c : Cursor) : Prop := ∃ pre, c.Behind text pre ∧ pre.getLast? ≠ some '\\' ∧
    ((∀ x ∈ pre.getLast?, Lexer.isIdentRest x = false) ∨ ∀ x ∈ c.rest.head?, isWordChar x = false)

/-- The cursor stands inside a literal. -/
def Cursor.InLiteral (text : List Char) (c : Cursor) : Prop := ∃ pre, c.Behind text pre ∧ Quoting.after pre ≠ .outside

/-- A literal that is read inside a literal ends inside a literal. -/
theorem ReadsLiteral.inLiteral (h : ReadsLiteral text c c') (between : c.Between text)
    (lost : c.InLiteral text) : c'.InLiteral text := by
  obtain ⟨e, c1, c2, hopen, keeps, hclose⟩ := h
  obtain ⟨pre, behind, hlast, -⟩ := between
  obtain ⟨pre', behind', hout⟩ := lost
  obtain rfl := behind.unique behind'
  have first : c1.Foreign text e := by
    refine ⟨pre ++ [e.char], behind.moves hopen, ?_⟩
    rw [Quoting.after_concat]
    exact Quoting.not_isIn_of_opening hout fun q hq => hlast (Quoting.getLast?_of_escaped hq)
  obtain ⟨mid, behind2, hmid⟩ := keeps.foreign first
  refine ⟨mid ++ [e.char], behind2.moves hclose, ?_⟩
  rw [Quoting.after_concat]
  exact Quoting.ne_outside_of_closing hmid

theorem ReadsLiteral.between (h : ReadsLiteral text c c') (between : c.Between text) : c'.Between text := by
  obtain ⟨e, c1, c2, hopen, ⟨⟨read, moves⟩, -⟩, hclose⟩ := h
  obtain ⟨pre, behind, -, -⟩ := between
  refine ⟨_, ((behind.moves hopen).moves moves).moves hclose, ?_, .inl ?_⟩
  · rw [getLast?_concat]
    exact fun h => e.char_ne_backslash (Option.some.inj h)
  · rw [getLast?_concat]
    rintro x ⟨⟩
    cases e <;> decide +kernel

/-- Text without quotes and backslashes leads out of no literal. -/
theorem Cursor.Between.plain (between : c.Between text) {read : List Char} (moves : c.Moves c' read)
    (hread : ∀ x ∈ read, Quoting.isPlain x = true)
    (edge : (∀ x ∈ read, Lexer.isIdentRest x = false) ∨ ∀ x ∈ c'.rest.head?, isWordChar x = false) :
    c'.Between text ∧ (c.InLiteral text → c'.InLiteral text) := by
  obtain ⟨pre, behind, hlast, hedge⟩ := between
  have behind' := behind.moves moves
  refine ⟨⟨pre ++ read, behind', ?_⟩, ?_⟩
  · rcases eq_nil_or_concat read with rfl | ⟨before, x, rfl⟩
    · rw [append_nil]
      exact ⟨hlast, by rwa [moves.rest] at hedge⟩
    · rw [concat_eq_append] at hread edge
      rw [concat_eq_append, ← append_assoc, getLast?_concat]
      refine ⟨fun h => ?_, edge.imp_left fun h y hy => ?_⟩
      · exact (Quoting.isPlain_iff.mp (hread x (by simp))).2 (Option.some.inj h)
      · obtain rfl := Option.mem_some_iff.mp hy
        exact h _ (by simp)
  · rintro ⟨pre', behind'', hout⟩
    obtain rfl := behind.unique behind''
    refine ⟨pre ++ read, behind', ?_⟩
    rw [Quoting.after_append]
    exact Quoting.foldl_ne_outside_of_plain hread hout

theorem skipGaps_moves (c : Cursor) : c.Moves c.skipGaps (c.rest.takeWhile isGap) := by
  have size : ∀ {cs : List Char}, (∀ x ∈ cs, isGap x = true) → byteLength cs = cs.length := by
    intro cs hcs
    induction cs with
    | nil => rfl
    | cons x cs ih =>
      obtain ⟨hx, hcs⟩ := forall_mem_cons.mp hcs
      have one : x.utf8Size = 1 := by
        simp only [isGap, Bool.or_eq_true, beq_iff_eq] at hx
        rcases hx with ((rfl | rfl) | rfl) | rfl <;> rfl
      rw [byteLength_cons, one, ih hcs, length_cons, Nat.add_comm]
  refine ⟨(takeWhile_append_dropWhile).symm, ?_⟩
  rw [size fun x hx => all_eq_true.mp all_takeWhile x hx]
  rfl

/-- A name stands at an offset of a text, outside literals and not in the middle
of a word. -/
def OutsideAt (text : List Char) (name : String) (offset : Nat) : Prop :=
  ∃ pre rest, text = pre ++ name.toList ++ rest ∧ byteLength pre = offset ∧
    Quoting.after pre = .outside ∧ ∀ x ∈ pre.getLast?, Lexer.isIdentRest x = false

/-- The name stands in the text, at its offset if that is kept. -/
def OutsideIn (text : List Char) (name : Name) : Prop :=
  ∃ offset, (∀ o ∈ name.2, o = offset) ∧ OutsideAt text name.1 offset

theorem run_ident_head (h : Rule.ident.body.run call true c f = .matched c' ts f') :
    ∃ x, isWordChar x = true ∧ x ∈ c.rest.head? := by
  obtain ⟨c1, _, _, _, hnot, hrest⟩ := Pattern.run_seq h
  obtain ⟨rfl, -⟩ := Pattern.run_not hnot
  obtain ⟨c2, _, _, _, hstart, -⟩ := Pattern.run_seq hrest
  rcases Pattern.run_alt hstart with h | ⟨_, h⟩
  · rw [Pattern.run] at h
    split at h
    · rename_i x rest hx
      split at h
      · rename_i halpha
        exact ⟨x, by simp [isWordChar, halpha], by simp [hx]⟩
      · cases h
    · cases h
  · have moves := Cursor.moves_of_strip (Pattern.run_lit h)
    exact ⟨'_', by decide +kernel, by rw [moves.rest]; rfl⟩

/-- Following the grammar over a text. -/
def steadyOver (text : List Char) (tidy : Tidy text) : Steady where
  Holds := Cursor.Between text
  Lost := Cursor.InLiteral text
  Knows := OutsideIn text
  gaps {c} between := by
    have gap : ∀ {x : Char}, isGap x = true → Quoting.isPlain x = true ∧ Lexer.isIdentRest x = false := by
      intro x hx
      simp only [isGap, Bool.or_eq_true, beq_iff_eq] at hx
      rcases hx with ((rfl | rfl) | rfl) | rfl <;> decide +kernel
    have gaps : ∀ x ∈ c.rest.takeWhile isGap, isGap x = true := all_eq_true.mp all_takeWhile
    exact between.plain (skipGaps_moves c) (fun x hx => (gap (gaps x hx)).1) (.inl fun x hx => (gap (gaps x hx)).2)
  operator {c c' read} hread between hstrip := by
    have operator : ∀ x, isOperatorChar x = true → Quoting.isPlain x = true ∧ Lexer.isIdentRest x = false := by
      intro x hx
      have all : ['(', ')', '[', ']', '\x7b', '\x7d', ',', ';', ':', '.', '=', '+', '-', '*', '/',
          '%', '&', '|', '^', '<', '>', '!'].all
          (fun x => Quoting.isPlain x && !Lexer.isIdentRest x) = true := by decide +kernel
      simpa using all_eq_true.mp all x (of_decide_eq_true hx)
    have hread := all_eq_true.mp hread
    exact between.plain (Cursor.moves_of_strip hstrip) (fun x hx => (operator x (hread x hx)).1)
      (.inl fun x hx => (operator x (hread x hx)).2)
  token {r depth c c' trees f f'} token between run := by
    by_cases hrune : r = .runeLit
    · subst hrune
      have literal := readsLiteral_of_rune tidy run
      exact ⟨literal.between between, literal.inLiteral between⟩
    · by_cases hstring : r = .stringLit
      · subst hstring
        have literal := readsLiteral_of_string tidy run
        exact ⟨literal.between between, literal.inLiteral between⟩
      · obtain ⟨read, moves, hread⟩ := Rule.word_plain token ⟨hrune, hstring⟩ run
        exact between.plain moves hread (.inr (Rule.word_ends token ⟨hrune, hstring⟩ run))
  ident {depth c c' trees f f'} between run lost := by
    obtain ⟨read, moves, hread⟩ := Rule.ident_reads run
    have hread_eq : takeBytes (c'.offset - c.offset) c.rest = read := by
      rw [moves.offset, moves.rest, Nat.add_sub_cancel_left, takeBytes_byteLength]
    obtain ⟨x, hx, hfirst⟩ := run_ident_head run
    obtain ⟨hplain, hends⟩ : (∀ x ∈ read, Quoting.isPlain x = true) ∧ ∀ x ∈ c'.rest.head?, isWordChar x = false :=
      ⟨fun x hx => isPlain_of_isWordChar (hread x hx), Rule.word_ends (r := .ident) rfl ⟨nofun, nofun⟩ run⟩
    have kept := (between.plain moves hplain (.inr hends)).2
    obtain ⟨pre, behind, -, edge⟩ := between
    rw [hread_eq, trim_eq_self fun x hx => isBlank_of_isWordChar (hread x hx), and_self]
    refine ⟨c.offset, ?_, pre, c'.rest, ?_, behind.offset.symm, ?_, ?_⟩
    · rintro o ⟨⟩
      rfl
    · rw [String.toList_ofList, append_assoc, ← moves.rest]
      exact behind.split
    · exact Decidable.byContradiction fun hout => lost (kept ⟨pre, behind, hout⟩)
    · rcases edge with edge | edge
      · exact edge
      · rw [edge x hfirst] at hx
        cases hx

/-- A file is matched to its end. -/
theorem matchRule_file {depth : Nat} (h : matchRule depth false .file c f = .matched c' ts f') : c'.rest = [] := by
  cases depth with
  | zero => cases h
  | succ depth =>
    rw [matchRule] at h
    split at h
    · cases h
    · rename_i c1 trees f1 hbody
      have hc1 : c1 = c' := by
        cases h
        rfl
      subst hc1
      obtain ⟨c2, f2, ts2, hlast⟩ := Pattern.run_last hbody
      have hend : matchRule depth false .endOfInput c2 f2 = .matched c1 ts2 f1 := hlast
      cases depth with
      | zero => cases hend
      | succ depth =>
        rw [matchRule] at hend
        split at hend
        · cases hend
        · rename_i c3 trees3 f3 hfinish
          have hc3 : c3 = c1 := by
            cases hend
            rfl
          subst hc3
          rw [Rule.body, Pattern.run] at hfinish
          split at hfinish
          · rename_i hempty
            cases hfinish
            simpa using hempty
          · cases hfinish

/-- **Identifiers are read outside literals.** If a text leaves all its literals closed and has
backslashes only inside them, every identifier in a match of a file stands outside literals. -/
theorem matchTree_bears {laidOut : String} (tidy : Tidy laidOut.toList)
    (closed : Quoting.after laidOut.toList = .outside) :
    Build.Ensures (Tree.Bears (OutsideIn laidOut.toList)) (matchTree .file laidOut) := by
  unfold matchTree
  split
  · exact .fail
  · rename_i t ts hmatch
    simp only [matchInput] at hmatch
    split at hmatch
    · rename_i c trees f hmatched
      cases hmatch
      have start : Cursor.Between laidOut.toList ⟨0, laidOut.toList⟩ := ⟨[], ⟨rfl, rfl⟩, nofun, .inl nofun⟩
      have leaves := (steadyOver laidOut.toList tidy).matches_matchRule _ start hmatched
      refine .pure (leaves.bears ?_).head.1
      rintro ⟨pre, behind, hout⟩
      refine hout ?_
      have hpre := behind.split
      rw [matchRule_file hmatched, append_nil] at hpre
      rw [← hpre]
      exact closed
    · cases hmatch
  · exact .fail

end Literals

end CheckHandle
