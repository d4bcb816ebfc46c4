import CheckHandle.Proofs.LaidOut

/-!
# Where a lexeme ends

A lexeme is as long as it can be. So it is read again before other text, if that
text starts as what followed before, or with a filler: no filler carries a word,
a number or an operator on, and a literal ends at its own closing quote.
-/

namespace CheckHandle

open Text Lexer List

/-- What follows a lexeme in a layout: it starts as what followed before, or with
a filler. -/
def Boundary (rest rest' : List Char) : Prop :=
  ∃ w r l, rest = w ++ r ∧ rest' = w ++ l ∧ ∀ x ∈ l.head?, isFiller x = true

variable {rest rest' cs text tail ds : List Char} {q : Char → Bool} {x c quote : Char}
  {kind : TokenKind} {p : Piece}

theorem Boundary.head (h : Boundary rest rest') : ∀ x ∈ rest'.head?, x ∈ rest.head? ∨ isFiller x = true := by
  obtain ⟨w, r, l, rfl, rfl, fill⟩ := h
  intro x hx
  cases w with
  | nil => exact .inr (fill x hx)
  | cons y w => exact .inl hx

/-- A class of characters without fillers ends where it ended before. -/
theorem Boundary.stops (h : Boundary rest rest') (free : [' ', '\n', ';'].any q = false)
    (stop : ∀ x ∈ rest.head?, q x = false) :
    ∀ x ∈ rest'.head?, q x = false := by
  intro x hx
  rcases h.head x hx with hrest | hfill
  · exact stop x hrest
  · have : x ∈ [' ', '\n', ';'] := by simpa [isFiller, or_assoc] using hfill
    simpa using any_eq_false.mp free x this

theorem takeWhile_append_stop (all : ∀ x ∈ cs, q x = true) (stop : ∀ x ∈ rest.head?, q x = false) :
    (cs ++ rest).takeWhile q = cs := by
  rw [takeWhile_append_of_pos all]
  cases rest with
  | nil => simp
  | cons x rest => simp [stop x rfl]

theorem head_drop_takeWhile (htext : cs.takeWhile q = text) (hcs : cs = text ++ rest) :
    ∀ x ∈ rest.head?, q x = false := by
  have hdrop : cs.dropWhile q = rest := by
    have := takeWhile_append_dropWhile (p := q) (l := cs)
    rw [htext, hcs] at this
    rw [hcs]
    exact append_cancel_left this
  rw [← hdrop]
  exact head_dropWhile

theorem mem_of_isFiller (h : isFiller x = true) : x ∈ [' ', '\n', ';'] := by
  simpa [isFiller, or_assoc] using h

theorem digits_filler (h : isFiller x = true) : digits (x :: cs) = ([], false) := by
  have among := mem_of_isFiller h
  simp only [mem_cons, not_mem_nil, or_false] at among
  unfold digits
  rcases among with rfl | rfl | rfl <;> rfl

theorem digits_digit (hc : (c.isDigit || c == '_') = true) :
    digits (c :: cs) = (c :: (digits cs).1, (digits cs).2) := by
  conv => lhs; unfold digits
  rw [if_pos hc]

theorem digits_point (hc : ¬(c.isDigit || c == '_') = true) (hpoint : (c == '.') = true) :
    digits (c :: cs) = (c :: (digits cs).1, true) := by
  conv => lhs; unfold digits
  rw [if_neg hc, if_pos hpoint]

theorem digits_exponent (hc : ¬(c.isDigit || c == '_') = true) (hpoint : ¬(c == '.') = true)
    (he : (c == 'e' || c == 'E') = true) (plus : ∀ rest, cs ≠ '+' :: rest)
    (minus : ∀ rest, cs ≠ '-' :: rest) :
    digits (c :: cs) = (c :: (digits cs).1, true) := by
  conv => lhs; unfold digits
  rw [if_neg hc, if_neg hpoint, if_pos he]
  split
  · exact absurd rfl (plus _)
  · exact absurd rfl (minus _)
  · rfl

theorem digits_signed {s : Char} (hc : ¬(c.isDigit || c == '_') = true)
    (hpoint : ¬(c == '.') = true) (he : (c == 'e' || c == 'E') = true) (hs : s = '+' ∨ s = '-') :
    digits (c :: s :: cs) = (c :: s :: (digits cs).1, true) := by
  conv => lhs; unfold digits
  rw [if_neg hc, if_neg hpoint, if_pos he]
  rcases hs with rfl | rfl <;> rfl

/-- Digits end where they ended before, if nothing new follows them but fillers. -/
theorem digits_stop (cs rest' : List Char)
    (stop : ∀ x ∈ rest'.head?, x ∈ (cs.drop (digits cs).1.length).head? ∨ isFiller x = true) :
    digits ((digits cs).1 ++ rest') = digits cs := by
  fun_induction digits cs with
  | case1 =>
    cases rest' with
    | nil => rfl
    | cons x rest' =>
      rcases stop x rfl with hx | hx
      · cases hx
      · exact digits_filler hx
  | case2 c cs hc text float hrec ih =>
    rw [hrec] at ih
    rw [cons_append, digits_digit hc, ih stop]
  | case3 c cs hc hpoint ih =>
    rw [cons_append, digits_point hc hpoint, ih stop]
  | case4 c hc hpoint he cs ih =>
    rw [cons_append, cons_append, digits_signed hc hpoint he (.inl rfl), ih stop]
  | case5 c hc hpoint he cs ih =>
    rw [cons_append, cons_append, digits_signed hc hpoint he (.inr rfl), ih stop]
  | case6 c hc hpoint he cs plus minus ih =>
    -- A sign after the exponent would have been taken before.
    have unsigned : ∀ s, s = '+' ∨ s = '-' → ∀ rest, (digits cs).1 ++ rest' ≠ s :: rest := by
      intro s hs rest heq
      obtain ⟨⟨rest0, hcs⟩, -⟩ := digits_form cs
      have hhead : s ∈ cs.head? := by
        cases htext : (digits cs).1 with
        | cons x text =>
          rw [htext] at heq hcs
          obtain ⟨rfl, -⟩ := List.cons.inj heq
          rw [hcs]
          rfl
        | nil =>
          rw [htext] at heq
          obtain rfl : rest' = s :: rest := heq
          rcases stop s rfl with hx | hx
          · rw [htext] at hx
            exact hx
          · have := mem_of_isFiller hx
            rcases hs with rfl | rfl <;> simp at this
      cases cs with
      | nil => cases hhead
      | cons x cs =>
        obtain rfl := Option.some.inj hhead
        rcases hs with rfl | rfl
        · exact plus cs rfl
        · exact minus cs rfl
    rw [cons_append, digits_exponent hc hpoint he (unsigned _ (.inl rfl)) (unsigned _ (.inr rfl)), ih stop]
  | case7 c cs hc hpoint he =>
    cases rest' with
    | nil => rfl
    | cons x rest' =>
      rcases stop x rfl with hx | hx
      · obtain rfl := Option.some.inj hx
        rw [nil_append]
        unfold digits
        rw [if_neg hc, if_neg hpoint, if_neg he]
      · exact digits_filler hx

/-- What starts a lexeme and holds no filler later on started it before. -/
theorem Boundary.starts (h : Boundary rest rest') {start : List Char} (hne : text ≠ [])
    (free : start.tail.any isFiller = false) (hstart : start <+: text ++ rest') :
    start <+: text ++ rest := by
  obtain ⟨w, r, l, rfl, rfl, fill⟩ := h
  rw [← append_assoc] at hstart ⊢
  obtain ⟨more, hmore⟩ := hstart
  rcases append_eq_append_iff.mp hmore with ⟨v, hv, -⟩ | ⟨v, rfl, rfl⟩
  · rw [hv, append_assoc]
    exact prefix_append ..
  · cases v with
    | nil => simp
    | cons x v =>
      -- The start reaches into the fillers, past its first character.
      exfalso
      have hx := fill x rfl
      obtain ⟨y, ys, rfl⟩ := exists_cons_of_ne_nil hne
      have : isFiller x = false := by simpa using any_eq_false.mp free x (by simp)
      rw [this] at hx
      cases hx

/-- The second character of a lexeme, where it is no filler, stood there before. -/
theorem Boundary.second (h : Boundary rest rest') (c : Char) {d : Char} (free : isFiller d = false)
    (hds : tail ++ rest' = d :: ds) :
    ∃ ds', tail ++ rest = d :: ds' := by
  have hstart : [c, d] <+: c :: tail ++ rest' := ⟨ds, congrArg (c :: ·) hds.symm⟩
  obtain ⟨more, hmore⟩ := h.starts (cons_ne_nil c tail) (by simp [free]) hstart
  exact ⟨more, (List.cons.inj hmore).2.symm⟩

theorem number_decimal (hx : ∀ ds, cs ≠ '0' :: 'x' :: ds) (hX : ∀ ds, cs ≠ '0' :: 'X' :: ds) :
    number cs = if (cs.drop (digits cs).1.length).head? = some 'i' then (.imag, (digits cs).1 ++ ['i'])
      else (if (digits cs).2 then .float else .int, (digits cs).1) := by
  unfold number
  split
  · exact absurd rfl (hx _)
  · exact absurd rfl (hX _)
  · simp only
    split
    · rename_i hrest
      rw [hrest]
      rfl
    · rename_i hrest
      refine (if_neg ?_).symm
      intro hhead
      obtain ⟨tail, htail⟩ := head?_eq_some_iff.mp hhead
      exact hrest tail htail

/-- A number in another base ends where its digits end. -/
theorem based_alike {w : List Char} (boundary : Boundary rest rest') (hds : ds = w ++ rest)
    (htext : ds.takeWhile (fun c => isHexDigit c || c == '_') = w) :
    (w ++ rest').takeWhile (fun c => isHexDigit c || c == '_') = w := by
  refine takeWhile_append_stop ?_ (boundary.stops (by decide) (head_drop_takeWhile htext hds))
  rw [← htext]
  exact all_eq_true.mp all_takeWhile

theorem decimal_alike (boundary : Boundary rest rest') (hx : ∀ ds, text ++ rest ≠ '0' :: 'x' :: ds)
    (hX : ∀ ds, text ++ rest ≠ '0' :: 'X' :: ds) (hx' : ∀ ds, text ++ rest' ≠ '0' :: 'x' :: ds)
    (hX' : ∀ ds, text ++ rest' ≠ '0' :: 'X' :: ds) (h : number (text ++ rest) = (kind, text)) :
    number (text ++ rest') = (kind, text) := by
  rw [number_decimal hx hX] at h
  rw [number_decimal hx' hX']
  split at h
  · rename_i himag
    obtain ⟨rfl, htext⟩ := Prod.mk.inj h
    have hcs' : text ++ rest' = (digits (text ++ rest)).1 ++ 'i' :: rest' := by
      rw [append_cons, htext]
    have same : digits (text ++ rest') = digits (text ++ rest) := by
      rw [hcs']
      apply digits_stop
      rintro x ⟨⟩
      exact .inl himag
    have hdrop : (text ++ rest').drop (digits (text ++ rest)).1.length = 'i' :: rest' := by
      rw [hcs', drop_left]
    rw [same, hdrop, head?_cons, if_pos rfl, htext]
  · rename_i hreal
    obtain ⟨hkind, htext⟩ := Prod.mk.inj h
    rw [htext, drop_left] at hreal
    have same : digits (text ++ rest') = digits (text ++ rest) := by
      have := digits_stop (text ++ rest) rest' (by rw [htext, drop_left]; exact boundary.head)
      rwa [htext] at this
    have hreal' : rest'.head? ≠ some 'i' := by
      intro hi
      rcases boundary.head 'i' hi with hi | hi
      · exact hreal hi
      · cases hi
    rw [same, htext, drop_left, if_neg hreal', hkind]

theorem number_alike (hne : text ≠ []) (boundary : Boundary rest rest') (h : number (text ++ rest) = (kind, text)) :
    number (text ++ rest') = (kind, text) := by
  have hex : ∀ mark ds, isFiller mark = false → text ++ rest' = '0' :: mark :: ds →
      ∃ ds', text ++ rest = '0' :: mark :: ds' := by
    intro mark ds free hds
    obtain ⟨c, tail, rfl⟩ := exists_cons_of_ne_nil hne
    obtain ⟨rfl, htail⟩ := List.cons.inj hds
    obtain ⟨ds', hds'⟩ := boundary.second '0' free htail
    exact ⟨ds', by rw [cons_append, hds']⟩
  generalize hcs : text ++ rest = cs at h hex
  have h0 := h
  unfold number at h
  split at h
  · obtain ⟨rfl, rfl⟩ := Prod.mk.inj h
    have hds := (List.cons.inj (List.cons.inj hcs).2).2.symm
    simp only [cons_append, number]
    rw [based_alike boundary hds rfl]
  · obtain ⟨rfl, rfl⟩ := Prod.mk.inj h
    have hds := (List.cons.inj (List.cons.inj hcs).2).2.symm
    simp only [cons_append, number]
    rw [based_alike boundary hds rfl]
  · rename_i hx hX
    subst hcs
    refine decimal_alike boundary hx hX ?_ ?_ h0
    · intro ds hds
      obtain ⟨ds', hds'⟩ := hex 'x' ds rfl hds
      exact hx ds' hds'
    · intro ds hds
      obtain ⟨ds', hds'⟩ := hex 'X' ds rfl hds
      exact hX ds' hds'

theorem quoted_cons (hc : c ≠ '\\') :
    quoted quote (c :: cs) = if c == '\n' then ([], false) else if c == quote then ([c], true)
      else (c :: (quoted quote cs).1, (quoted quote cs).2) := by
  conv => lhs; unfold quoted
  split
  · rename_i heq
    cases heq
  · rename_i heq
    exact absurd (List.cons.inj heq).1 hc
  · rename_i heq
    exact absurd (List.cons.inj heq).1 hc
  · rename_i heq
    obtain ⟨rfl, rfl⟩ := List.cons.inj heq
    rfl

/-- A closing quote ends its literal, whatever follows. -/
theorem quoted_alike (rest' : List Char) (h : quoted quote (text ++ rest) = (text, true)) :
    quoted quote (text ++ rest') = (text, true) := by
  have plain : ∀ {c : Char} {cs : List Char}, (c = '\\' → cs = [] → False) →
      (∀ d ds, c = '\\' → cs = d :: ds → False) → c ≠ '\\' := by
    intro c cs h1 h2 hc
    cases cs with
    | nil => exact h1 hc rfl
    | cons d ds => exact h2 d ds hc rfl
  generalize hcs : text ++ rest = cs at h
  fun_induction quoted quote cs generalizing text with
  | case1 => cases h
  | case2 => cases h
  | case3 c cs text' closed hrec ih =>
    obtain ⟨rfl, rfl⟩ := Prod.mk.inj h
    have := ih (List.cons.inj (List.cons.inj hcs).2).2 hrec
    simp [quoted, this]
  | case4 => cases h
  | case5 c cs h1 h2 hn hc =>
    obtain ⟨rfl, -⟩ := Prod.mk.inj h
    rw [cons_append, quoted_cons (plain h1 h2), if_neg hn, if_pos hc]
  | case6 c cs h1 h2 hn hc text' closed hrec ih =>
    obtain ⟨rfl, rfl⟩ := Prod.mk.inj h
    have := ih (List.cons.inj hcs).2 hrec
    rw [cons_append, quoted_cons (plain h1 h2), if_neg hn, if_neg hc, this]

theorem rawQuoted_alike (rest' : List Char) (h : rawQuoted quote (text ++ rest) = some text) :
    rawQuoted quote (text ++ rest') = some text := by
  generalize hcs : text ++ rest = cs at h
  induction cs generalizing text with
  | nil => cases h
  | cons c cs ih =>
    rw [rawQuoted] at h
    split at h
    · rename_i hc
      obtain rfl := Option.some.inj h
      exact if_pos hc
    · rename_i hc
      obtain ⟨text', htext', rfl⟩ := Option.map_eq_some_iff.mp h
      rw [cons_append, rawQuoted, if_neg hc, ih (List.cons.inj hcs).2 htext']
      rfl

theorem operator?_alike (hne : text ≠ []) (boundary : Boundary rest rest')
    (h : operator? (text ++ rest) = some text) : operator? (text ++ rest') = some text := by
  have free : ∀ op ∈ Token.operators.map String.toList, op.tail.any isFiller = false := by
    have : (Token.operators.map String.toList).all (fun op => !op.tail.any isFiller) = true := by
      decide +kernel
    simpa using this
  rw [operator?, find?_eq_some_iff_append] at h ⊢
  obtain ⟨-, before, after, hops, hbefore⟩ := h
  refine ⟨?_, before, after, hops, ?_⟩
  · exact isPrefixOf_iff_prefix.mpr (prefix_append ..)
  · intro op hop
    have := hbefore op hop
    have hmem : op ∈ Token.operators.map String.toList := by rw [hops]; simp [hop]
    rw [Bool.not_eq_true', ← Bool.not_eq_true, isPrefixOf_iff_prefix] at this ⊢
    intro hstarts
    exact this (boundary.starts hne (free op hmem) hstarts)

/-- Whether a number starts here. -/
def startsNumber (c : Char) (cs : List Char) : Bool := c.isDigit || (c == '.' && cs.head?.any Char.isDigit)

theorem startsNumber_of_boundary (boundary : Boundary rest rest')
    (h : startsNumber c (tail ++ rest') = true) : startsNumber c (tail ++ rest) = true := by
  simp only [startsNumber, Bool.or_eq_true, Bool.and_eq_true, beq_iff_eq] at h ⊢
  rcases h with hc | ⟨rfl, hhead⟩
  · exact .inl hc
  · refine .inr ⟨rfl, ?_⟩
    cases hcs : tail ++ rest' with
    | nil =>
      rw [hcs] at hhead
      cases hhead
    | cons d ds =>
      rw [hcs] at hhead
      have hdigit : d.isDigit = true := hhead
      have free : isFiller d = false := by
        refine Bool.eq_false_iff.mpr fun hfill => ?_
        have among := mem_of_isFiller hfill
        simp only [mem_cons, not_mem_nil, or_false] at among
        rcases among with rfl | rfl | rfl <;> cases hdigit
      obtain ⟨more, hmore⟩ := boundary.second '.' free hcs
      rw [hmore]
      exact hdigit

theorem startsNumber_alike (h : startsNumber c (tail ++ rest) = true)
    (htext : number (c :: (tail ++ rest)) = (kind, c :: tail)) :
    startsNumber c (tail ++ rest') = true := by
  simp only [startsNumber, Bool.or_eq_true, Bool.and_eq_true, beq_iff_eq] at h ⊢
  rcases h with hc | ⟨rfl, hhead⟩
  · exact .inl hc
  · refine .inr ⟨rfl, ?_⟩
    cases tail with
    | cons d tail => exact hhead
    | nil =>
      -- A point before a digit is never a number alone.
      exfalso
      cases rest with
      | nil => cases hhead
      | cons d rest =>
        have hdigit : d.isDigit = true := hhead
        rw [nil_append, number_decimal (fun ds h => by cases h) (fun ds h => by cases h),
          digits_point (by decide) rfl, digits_digit (by simp [hdigit])] at htext
        split at htext <;> simp at htext

theorem quotedPiece_alike {literal : Enclosed} (rest' : List Char)
    (h : quotedPiece quote kind literal (tail ++ rest) = .ok p) (htext : p.text = quote :: tail) :
    quotedPiece quote kind literal (tail ++ rest') = .ok p := by
  unfold quotedPiece at h ⊢
  simp only at h ⊢
  split at h
  · rename_i hclosed
    obtain rfl := Except.ok.inj h
    have hquoted : quoted quote (tail ++ rest) = (tail, true) := Prod.ext (List.cons.inj htext).2 hclosed
    rw [quoted_alike rest' hquoted, hquoted]
    rfl
  · cases h

/-- A lexeme is read as before, if nothing new follows it but fillers. -/
theorem lexeme_alike (boundary : Boundary rest rest') (h : lexeme c (tail ++ rest) = .ok p)
    (htext : p.text = c :: tail) :
    lexeme c (tail ++ rest') = .ok p := by
  have hne : c :: tail ≠ [] := cons_ne_nil c tail
  unfold lexeme at h ⊢
  split at h
  · rename_i hstart
    rw [if_pos hstart]
    obtain rfl := Except.ok.inj h
    have htail : (tail ++ rest).takeWhile isIdentRest = tail := (List.cons.inj htext).2
    have : (tail ++ rest').takeWhile isIdentRest = tail := by
      refine takeWhile_append_stop ?_ (boundary.stops (by decide +kernel) (head_drop_takeWhile htail rfl))
      rw [← htail]
      exact all_eq_true.mp all_takeWhile
    simp only [htail, this]
  rename_i hstart
  rw [if_neg hstart]
  change (if startsNumber c (tail ++ rest) = true then _ else _) = _ at h
  change (if startsNumber c (tail ++ rest') = true then _ else _) = _
  split at h
  · rename_i hnum
    obtain rfl := Except.ok.inj h
    have hnumber : number (c :: (tail ++ rest)) = ((number (c :: (tail ++ rest))).1, c :: tail) := Prod.ext rfl htext
    rw [if_pos (startsNumber_alike hnum hnumber)]
    have := number_alike hne boundary hnumber
    rw [cons_append] at this
    simp only [this]
    rw [← htext]
    rfl
  rename_i hnum
  rw [if_neg fun hnum' => hnum (startsNumber_of_boundary boundary hnum')]
  split at h
  · rename_i hquote
    rw [if_pos hquote]
    exact quotedPiece_alike rest' h htext
  rename_i hquote
  rw [if_neg hquote]
  split at h
  · rename_i hrune
    rw [if_pos hrune]
    exact quotedPiece_alike rest' h htext
  rename_i hrune
  rw [if_neg hrune]
  split at h
  · rename_i hraw
    rw [if_pos hraw]
    split at h
    · rename_i text hrec
      obtain rfl := Except.ok.inj h
      obtain rfl := (List.cons.inj htext).2
      rw [rawQuoted_alike rest' hrec]
    · cases h
  rename_i hraw
  rw [if_neg hraw]
  have hop : operator? (c :: tail ++ rest) = some (c :: tail) := by
    rw [cons_append]
    split at h
    · rename_i hop
      obtain rfl := Except.ok.inj h
      rw [hop, ← htext]
      rfl
    · rename_i text _ hop
      obtain rfl := Except.ok.inj h
      rw [hop, ← htext]
      rfl
    · cases h
  have hop' := operator?_alike hne boundary hop
  rw [cons_append] at hop hop'
  rw [hop] at h
  rw [hop']
  exact h

/-- A lexeme that stood at the head of the text stands there again. -/
theorem piece_alike (boundary : Boundary rest rest')
    (h : piece c (tail ++ rest) = .ok (.lexeme kind text)) (htext : text = c :: tail) :
    piece c (tail ++ rest') = .ok (.lexeme kind text) := by
  unfold piece at h ⊢
  split at h
  · cases h
  rename_i hnewline
  rw [if_neg hnewline]
  split at h
  · cases h
  rename_i hgap
  rw [if_neg hgap]
  split at h
  · cases h
  · rename_i hslash
    split at h <;> cases h
  · rename_i hline hblock
    split
    · rename_i ds hds
      obtain ⟨ds', hds'⟩ := boundary.second '/' rfl hds
      exact absurd hds' (hline ds' rfl)
    · rename_i ds hds
      obtain ⟨ds', hds'⟩ := boundary.second '/' rfl hds
      exact absurd hds' (hblock ds' rfl)
    · exact lexeme_alike boundary h htext

end CheckHandle
