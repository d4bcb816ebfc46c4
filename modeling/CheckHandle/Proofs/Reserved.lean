import CheckHandle.Proofs.Written

/-!
# Where reserved names come from

The lowering refuses every word with the reserved start, and places such words
itself. So where a file that is read from a lowered text spells a reserved name,
the lowering has placed it, with one exception: a number may end in an
underscore, and the grammar may read that underscore as the start of a name.
-/

namespace CheckHandle

open Text Lexer List

/-! ## The state at a kept piece -/

variable {s : Scanning} {p : Piece} {closing pending : Bool} {o : Nat} {ps : List Piece}
  {es : List Edit} {segs : List Stretch} {text rest : List Char} {source : String}
  {lowered : Lowered}

theorem foldl_placedText (hs : s.IsCode) {text : String} (known : text ∈ placedTexts) :
    text.toList.foldl Scanning.step s = .code := by
  have both : ∀ text ∈ placedTexts, text.toList.foldl Scanning.step .code = .code ∧
      text.toList.foldl Scanning.step .slash = .code := by decide +kernel
  rcases hs with rfl | rfl
  · exact (both text known).1
  · exact (both text known).2

/-- A lexeme starts in code. -/
theorem Scanning.Admits.isCode (h : s.Admits p) (lexeme : p.isLexeme = true) : s.IsCode := by
  rcases h with rfl | ⟨rfl, -⟩ | ⟨-, rfl⟩
  · exact .inl rfl
  · exact .inr rfl
  · cases lexeme

/-- Code goes on after a piece other than a line comment. -/
theorem Scanning.Crosses.isCode (h : s.Crosses p) (line : ∀ text, p ≠ .lineComment text) :
    (p.text.foldl step s).IsCode := by
  rcases h.last with hcode | ⟨-, hslash⟩ | ⟨⟨text, htext⟩, -⟩
  · exact .inl hcode
  · exact .inr hslash
  · exact absurd htext (line text)

/-- Where a placed text starts. -/
def placedStarts : List Char := [')', '_', 'i']

/-- What is written first is what the pieces start with, or is placed. -/
theorem Written.head (h : Written closing pending o ps es segs) (hps : ∀ p ∈ ps, p.text ≠ []) :
    ∀ x ∈ (stretchText segs).head?, x ∈ (textOf ps).head? ∨ x ∈ placedStarts := by
  have starts : placedTexts.all (·.toList.head?.any placedStarts.contains) = true := by decide
  have kept : ∀ {p : Piece} {ps : List Piece} {segs : List Stretch}, p.text ≠ [] →
      ∀ x ∈ (stretchText (.kept p :: segs)).head?, x ∈ (textOf (p :: ps)).head? := by
    intro p ps segs hp x hx
    obtain ⟨c, cs, hcs⟩ := exists_cons_of_ne_nil hp
    rw [stretchText_kept, hcs] at hx
    rw [textOf_cons, hcs]
    exact hx
  have placed : ∀ {text : String} {segs : List Stretch}, text ∈ placedTexts →
      ∀ x ∈ (stretchText (.placed text.toList :: segs)).head?, x ∈ placedStarts := by
    intro text segs known x hx
    obtain ⟨c, hhead, hc⟩ := (Option.any_eq_true _ _).mp (all_eq_true.mp starts text known)
    obtain ⟨cs, hcs⟩ := head?_eq_some_iff.mp hhead
    rw [stretchText_placed, hcs] at hx
    obtain rfl := Option.some.inj hx
    exact contains_iff_mem.mp hc
  induction h with
  | nil => nofun
  | gap | lexeme => exact fun x hx => .inl (kept (hps _ mem_cons_self) x hx)
  | semicolon more ih => exact ih hps
  | place gone known | again known => exact fun x hx => .inr (placed known x hx)

/-- A kept piece in the lowered text: the state it starts in, and what follows it
there and in the source. -/
structure Kept (s : Scanning) (p : Piece) (after : List Char) : Prop where
  admits : s.Admits p
  follows : ∃ rest, p.Form rest ∧ ∀ x ∈ after.head?, x ∈ rest.head? ∨ x ∈ placedStarts
  free : ∀ text, p = .lexeme .ident text → isReserved (String.ofList text) = false

theorem Reads.first (h : Reads text (p :: ps)) : p.Form (textOf ps) :=
  Reads.form (show Reads text ([] ++ p :: ps) from h)

theorem Reads.others (h : Reads text (p :: ps)) : Reads (textOf ps) ps :=
  Reads.split (show Reads text ([p] ++ ps) from h)

/-- The piece after one that was read. -/
theorem Reads.next (reads : Reads text (p :: ps)) (crosses : s.Crosses p) :
    ∀ q ∈ ps.head?, (p.text.foldl Scanning.step s).Admits q := by
  intro q hq
  obtain ⟨qs, rfl⟩ := head?_eq_some_iff.mp hq
  exact crosses.next reads.first reads.others.first rfl

/-- **The lowering keeps code as code.** Every kept piece starts in a state that admits it. -/
theorem Written.kept (h : Written closing pending o ps es segs) (reads : Reads (textOf ps) ps)
    (admits : ∀ p ∈ ps.head?, s.Admits p) (code : closing = true ∨ pending = true → s.IsCode)
    {segs1 segs2 : List Stretch} (hsplit : segs = segs1 ++ .kept p :: segs2) :
    Kept ((stretchText segs1).foldl Scanning.step s) p (stretchText segs2) := by
  induction h generalizing s segs1 with
  | nil => simp at hsplit
  | @gap _ pending _ q ps _ _ hgap line more ih =>
    have crosses := (admits q rfl).crosses reads.first
    cases segs1 with
    | nil =>
      obtain ⟨hq, rfl⟩ := List.cons.inj hsplit
      cases hq
      refine ⟨admits p rfl, ⟨_, reads.first, more.head reads.others.formed.text_ne_nil⟩, ?_⟩
      rintro text rfl
      cases hgap
    | cons seg segs1 =>
      obtain ⟨rfl, htail⟩ := List.cons.inj hsplit
      rw [stretchText_kept, foldl_append]
      refine ih reads.others (reads.next crosses) (fun here => crosses.isCode ?_) htail
      -- While a semicolon is pending, no line comment is written.
      rintro text rfl
      rcases here with hclosing | hpending
      · cases hclosing
      · cases line hpending
  | @lexeme _ _ pending' _ kind text ps _ _ free more ih =>
    have crosses := (admits _ rfl).crosses reads.first
    cases segs1 with
    | nil =>
      obtain ⟨hq, rfl⟩ := List.cons.inj hsplit
      cases hq
      refine ⟨admits _ rfl, ⟨_, reads.first, more.head reads.others.formed.text_ne_nil⟩, ?_⟩
      rintro text' ⟨⟩
      exact free rfl
    | cons seg segs1 =>
      obtain ⟨rfl, htail⟩ := List.cons.inj hsplit
      rw [stretchText_kept, foldl_append]
      exact ih reads.others (reads.next crosses) (fun _ => crosses.isCode nofun) htail
  | semicolon more ih => exact ih reads admits (fun _ => code (.inr rfl)) hsplit
  | @place _ _ _ _ _ text gone ps _ _ known between lexeme more ih =>
    have hs : s.IsCode := by
      cases gone with
      | nil => exact code (.inl (between rfl))
      | cons q gone => exact (admits q rfl).isCode (lexeme q rfl)
    cases segs1 with
    | nil => cases (List.cons.inj hsplit).1
    | cons seg segs1 =>
      obtain ⟨rfl, htail⟩ := List.cons.inj hsplit
      rw [stretchText_placed, foldl_append, foldl_placedText hs known]
      exact ih reads.split (fun _ _ => .inl rfl) (fun _ => .inl rfl) htail
  | @again _ _ _ _ _ _ text text' q ps _ _ known known' lexeme beyond more ih =>
    have hs : s.IsCode := (admits q rfl).isCode lexeme
    rcases segs1 with _ | ⟨seg, _ | ⟨seg', segs1⟩⟩
    · cases (List.cons.inj hsplit).1
    · cases (List.cons.inj (List.cons.inj hsplit).2).1
    · obtain ⟨rfl, htail⟩ := List.cons.inj hsplit
      obtain ⟨rfl, hrest⟩ := List.cons.inj htail
      rw [stretchText_placed, stretchText_placed, foldl_append, foldl_append,
        foldl_placedText hs known, foldl_placedText (.inl rfl) known']
      exact ih reads.others (fun _ _ => .inl rfl) (fun _ => .inl rfl) hrest

/-! ## Reserved names of a lowered text -/

/-- The lowered text, as stretches. -/
theorem lower_written (h : lower source = .ok lowered) : ∃ ps es segs, Reads source.toList ps ∧
      (scan .marked source).tokens = (scanFrom ScanMode.marked.quiet 0 false none ps).tokens ∧
      Written true false 0 ps es segs ∧
      Applied 0 0 [] 0 ps segs (lowered.text.toList, lowered.offsets.placements) := by
  obtain ⟨nofault, final, hrun, hfinish⟩ := lower_ok h
  obtain ⟨-, -, happlied, -⟩ := Lowering.finish_ok hfinish
  have reads := reads_of_scan nofault
  have hscan : scan .marked source = scanFrom ScanMode.marked.quiet 0 false none (lex source.toList).1 := by
    have none : (lex source.toList).2 = none := scanFrom_fault nofault
    rw [← none]
    rfl
  rw [hscan] at hrun
  obtain ⟨es, hes, leaves⟩ := Lowering.run_leaves hrun
  obtain ⟨segs, written⟩ := leaves.closing rfl
  refine ⟨_, es, segs, reads, by rw [hscan], written, ?_⟩
  rw [happlied, hes]
  exact written.applied (show source.toList = [] ++ ([] ++ textOf _) from reads.text_eq) rfl rfl

/-- A character of the lowered text stands in one of the stretches. -/
theorem stretchText_locate {before : List Char} {x : Char} (h : stretchText segs = before ++ x :: rest) :
    ∃ segs1 seg segs2 u v, segs = segs1 ++ seg :: segs2 ∧ seg.text = u ++ x :: v ∧
      before = stretchText segs1 ++ u ∧ rest = v ++ stretchText segs2 := by
  induction segs generalizing before with
  | nil => simp at h
  | cons seg segs ih =>
    rcases append_eq_append_cons h with ⟨w, rfl, hmore⟩ | ⟨v, htext, rfl⟩
    · obtain ⟨segs1, seg', segs2, u, v, rfl, htext, rfl, rfl⟩ := ih hmore
      exact ⟨seg :: segs1, seg', segs2, u, v, rfl, htext, (append_assoc ..).symm, rfl⟩
    · exact ⟨[], seg, segs, before, v, rfl, htext, rfl, rfl⟩

theorem isIdentRest_of_isIdentStart {c : Char} (h : isIdentStart c = true) : isIdentRest c = true := by
  simp only [isIdentStart, Bool.or_eq_true] at h
  simp only [isIdentRest, isAlphanumeric, Bool.or_eq_true]
  exact h.imp_left fun h => .inl (.inl h)

/-- A word with the reserved start is an identifier. -/
theorem wordKind_reserved (text : List Char) : wordKind ('_' :: text) = .ident := by
  have none : ∀ word ∈ Token.keywords, word.toList.head? ≠ some '_' := by decide
  rw [wordKind, if_neg]
  intro h
  exact none _ h (by rw [String.toList_ofList]; rfl)

/-- **The reserved start in a kept piece.** In code and with no word before it, it starts with the last
character of a number. -/
theorem Kept.reserved {after u v : List Char} (h : Kept s p after) (htext : p.text = u ++ '_' :: v)
    (hrest : v ++ after = ['g', 'o', '2'] ++ rest) (code : (u.foldl Scanning.step s).IsCode)
    (edge : ∀ x ∈ u.getLast?, isIdentRest x = false) :
    ∃ kind text, p = .lexeme kind text ∧ kind ∈ [TokenKind.int, .float, .imag] ∧ u ≠ [] ∧ v = [] := by
  obtain ⟨follow, form, follows⟩ := h.follows
  have crosses := h.admits.crosses form
  have hidden : p.hidesCode = true → u ≠ [] → False := by
    intro hides hu
    obtain ⟨x, hx, hslash⟩ := crosses.hidden htext hu nofun hides code
    obtain rfl := Option.some.inj hx
    exact absurd hslash (by decide)
  cases form with
  | newline => rcases u with _ | ⟨x, _ | ⟨y, u⟩⟩ <;> cases htext
  | blank gap =>
    cases u with
    | nil =>
      obtain ⟨rfl, -⟩ := List.cons.inj htext
      exact absurd gap (by decide)
    | cons x u => simp [Piece.text] at htext
  | lineComment | blockComment =>
    refine (hidden rfl ?_).elim
    rintro rfl
    cases htext
  | @literal q kind body hkind =>
    refine (hidden ?_ ?_).elim
    · simp only [mem_cons, not_mem_nil, or_false] at hkind
      rcases hkind with rfl | rfl <;> rfl
    · rintro rfl
      exact absurd (List.cons.inj htext).1 (by cases q <;> decide)
  | @operator kind text _ hkind known =>
    have none : ∀ text ∈ Token.operators.map String.toList, '_' ∉ text := by decide +kernel
    have htext : text = u ++ '_' :: v := htext
    exact absurd (by rw [htext]; simp) (none _ known)
  | @number kind c tail hkind start chars =>
    refine ⟨kind, _, rfl, hkind, ?_, ?_⟩
    · rintro rfl
      obtain ⟨rfl, -⟩ := List.cons.inj htext
      exact absurd start (by decide)
    · cases v with
      | nil => rfl
      | cons x v =>
        obtain ⟨rfl, -⟩ := List.cons.inj hrest
        have htext : c :: tail = u ++ '_' :: 'g' :: v := htext
        exact absurd (chars 'g' (by rw [htext]; simp)) (by decide)
  | @word c tail _ start more hfollow =>
    exfalso
    have htext : c :: tail = u ++ '_' :: v := htext
    rcases eq_nil_or_concat u with rfl | ⟨u, x, rfl⟩
    · -- The whole reserved start is in the word, so the lowering has refused it.
      obtain ⟨rfl, rfl⟩ := List.cons.inj htext
      have whole : ∃ w, tail = ['g', 'o', '2'] ++ w := by
        rcases append_eq_append_iff.mp hrest with ⟨w, hw, hafter⟩ | ⟨w, rfl, -⟩
        · cases w with
          | nil => exact ⟨[], by rw [hw, append_nil, append_nil]⟩
          | cons x w =>
            have hx : x ∈ ['g', 'o', '2'] := by rw [hw]; simp
            have ident : ['g', 'o', '2'].all (fun x => isIdentRest x && !placedStarts.contains x) = true := by
              decide +kernel
            obtain ⟨hident, hplaced⟩ : isIdentRest x = true ∧ x ∉ placedStarts := by
              simpa using all_eq_true.mp ident x hx
            rcases follows x (by rw [hafter]; rfl) with hin | hin
            · rw [hfollow x hin] at hident
              cases hident
            · exact absurd hin hplaced
        · exact ⟨w, rfl⟩
      obtain ⟨w, rfl⟩ := whole
      have free := h.free _ (by rw [wordKind_reserved])
      rw [isReserved, String.toList_ofList] at free
      exact absurd free (by simp [reservedStart])
    · have hx : isIdentRest x = true := by
        have : x ∈ c :: tail := by rw [htext]; simp
        rcases mem_cons.mp this with rfl | htail
        · exact isIdentRest_of_isIdentStart start
        · exact more x htail
      rw [edge x (by simp)] at hx
      cases hx

/-- The token of a lexeme. -/
theorem mem_scanFrom {quiet : List String} {fault : Option LexFault} (ps1 : List Piece)
    (kind : TokenKind) (text : List Char) (ps2 : List Piece) :
    ⟨kind, String.ofList text, ⟨o + byteLength (textOf ps1), o + byteLength (textOf ps1) + byteLength text⟩⟩ ∈
      (scanFrom quiet o pending fault (ps1 ++ .lexeme kind text :: ps2)).tokens := by
  induction ps1 generalizing o pending with
  | nil => exact mem_cons_self
  | cons p ps1 ih =>
    rw [textOf_cons, byteLength_append, ← Nat.add_assoc]
    rw [cons_append]
    unfold scanFrom
    split
    · exact mem_cons_of_mem _ ih
    · split
      · exact mem_cons_of_mem _ ih
      · exact ih

/-- **Reserved names cannot be written, save after a number.** Where a file that is
read from a lowered text spells a reserved name, its reserved start stands in the
code of that text. Wherever it stands there, it lies in a text that an edit of the
lowering has placed, or starts with the last character of a number of the source,
behind the first one. -/
theorem lower_reserved {f : File} {n n' : NodeId} (hlower : lower source = .ok lowered)
    (hparse : parseFile lowered.text n = .ok (f, n')) (small : byteLength source.toList < 2 ^ 63) :
    (∀ w ∈ f.spelled, isReserved w.1 = true →
      ∃ offset, (∀ o ∈ w.2, o = offset) ∧ ReservedAt lowered.text.toList offset) ∧
    ∀ offset, ReservedAt lowered.text.toList offset →
      (∃ pl ∈ lowered.offsets.placements, pl.loweredStart ≤ offset ∧ offset < pl.loweredStop) ∨
        ∃ t ∈ (scan .marked source).tokens, t.kind ∈ [TokenKind.int, .float, .imag] ∧
          t.span.start < lowered.offsets.toSource offset ∧
          lowered.offsets.toSource offset + 1 = t.span.stop := by
  refine ⟨fun w hw reserved => parseFile_reserved hparse hw reserved, ?_⟩
  rintro offset ⟨before, after, htext, rfl, code, edge⟩
  obtain ⟨ps, es, segs, reads, htokens, written, applied⟩ := lower_written hlower
  have hsegs : stretchText segs = before ++ '_' :: (['g', 'o', '2'] ++ after) := applied.text.symm.trans htext
  obtain ⟨segs₁, seg, segs₂, u, v, rfl, hseg, rfl, hrest⟩ := stretchText_locate hsegs
  cases seg with
  | placed text =>
    obtain ⟨pl, hpl, hstart, hstop⟩ := applied.placed rfl
    have hseg : text = u ++ '_' :: v := hseg
    rw [hseg] at hstop
    simp only [nil_append, Nat.zero_add, byteLength_append, byteLength_cons] at hstart hstop ⊢
    have := Char.utf8Size_pos '_'
    exact .inl ⟨pl, hpl, by omega, by omega⟩
  | kept p =>
    have kept := written.kept (reads.text_eq ▸ reads) (fun _ _ => .inl rfl) (fun _ => .inl rfl) rfl
    have code : (u.foldl Scanning.step ((stretchText segs₁).foldl Scanning.step .code)).IsCode := by
      rwa [Scanning.after_append] at code
    have hlast : ∀ x ∈ u.getLast?, isIdentRest x = false := by
      intro x hx
      refine edge x ?_
      cases u with
      | nil => cases hx
      | cons y u => rwa [getLast?_append_of_ne_nil (cons_ne_nil y u)]
    obtain ⟨kind, text, rfl, hkind, hu, rfl⟩ := kept.reserved hseg hrest.symm code hlast
    obtain ⟨ps₁, ps₂, rfl, hmap⟩ := applied.kept rfl
    have hseg : text = u ++ ['_'] := hseg
    have hsize : byteLength text = byteLength u + 1 := by
      rw [hseg, byteLength_append]
      rfl
    have hpos : 0 < byteLength u := by
      obtain ⟨c, cs, rfl⟩ := exists_cons_of_ne_nil hu
      have := c.utf8Size_pos
      rw [byteLength_cons]
      omega
    have hbound : byteLength (textOf ps₁) + byteLength text ≤ byteLength source.toList := by
      rw [reads.text_eq, textOf_append, textOf_cons, byteLength_append, byteLength_append]
      simp only [Piece.text]
      omega
    have hsource : lowered.offsets.toSource (byteLength (stretchText segs₁ ++ u)) =
        byteLength (textOf ps₁) + byteLength u := by
      have := hmap (byteLength u) (by simp only [Piece.text]; omega) (by omega)
      simpa [OffsetMap.toSource] using this
    refine .inr ⟨_, htokens ▸ mem_scanFrom ps₁ kind text ps₂, hkind, ?_, ?_⟩
    · simp only [hsource]
      omega
    · simp only [hsource]
      omega

/-- The names that are read from a marked source. -/
def spelledIn (source : String) : List Name :=
  match lower source with
  | .error _ => []
  | .ok lowered =>
    match parseFile lowered.text 0 with
    | .error _ => []
    | .ok (f, _) => f.spelled

/-- The exception is taken: the number ends in the first character of the name. -/
theorem lower_reserved_afterNumber : ∃ lowered f n,
    lower "package m;var x=check 5._go2y" = .ok lowered ∧ parseFile lowered.text 0 = .ok (f, n) ∧
      ("_go2y", some 28) ∈ f.spelled ∧ ReservedAt lowered.text.toList 28 ∧
      ((∃ pl ∈ lowered.offsets.placements, pl.loweredStart ≤ 28 ∧ 28 < pl.loweredStop) ∨
        ∃ t ∈ (scan .marked "package m;var x=check 5._go2y").tokens,
          t.kind ∈ [TokenKind.int, .float, .imag] ∧ t.span.start < lowered.offsets.toSource 28 ∧
          lowered.offsets.toSource 28 + 1 = t.span.stop) := by
  have hspelled : spelledIn "package m;var x=check 5._go2y" =
      [("m", some 8), ("x", some 14), ("_go2check", some 16), ("_go2y", some 28)] := by
    cbv
  unfold spelledIn at hspelled
  cases hlower : lower "package m;var x=check 5._go2y" with
  | error fault =>
    rw [hlower] at hspelled
    cases hspelled
  | ok lowered =>
    rw [hlower] at hspelled
    dsimp only at hspelled
    cases hparse : parseFile lowered.text 0 with
    | error fault =>
      rw [hparse] at hspelled
      cases hspelled
    | ok result =>
      rw [hparse] at hspelled
      have hw : ("_go2y", some 28) ∈ result.1.spelled := by
        rw [show result.1.spelled = _ from hspelled]
        simp
      obtain ⟨spelled, origin⟩ := lower_reserved hlower hparse (by decide +kernel)
      obtain ⟨offset, hoffset, stands⟩ := spelled _ hw (by decide +kernel)
      obtain rfl := hoffset 28 rfl
      exact ⟨lowered, result.1, result.2, rfl, hparse, hw, stands, origin 28 stands⟩

end CheckHandle
