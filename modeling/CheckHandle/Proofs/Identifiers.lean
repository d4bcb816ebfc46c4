import CheckHandle.Check.Results
import CheckHandle.Marker.Names
import CheckHandle.Proofs.Lexing

/-!
# Temporaries as identifiers

A temporary is named by a reserved start, the word for its type and a number. It
is an identifier if and only if every character of the word continues one, for
the scanner and for the grammar. Words are filtered, but a part of a word is put
into upper case after that, and the upper-case form of a letter may have
characters that continue no identifier.
-/

namespace CheckHandle

open Text Lexer List

variable {s : String} {cs : List Char} {c : Char}

/-- The scanner and the grammar read the text as one identifier. -/
def IsIdentifier (s : String) : Prop :=
  (∃ o, scan .plain s = ⟨[⟨.ident, s, ⟨0, o⟩⟩, autoSemicolon o, ⟨.endOfText, "", ⟨o, o⟩⟩], none⟩) ∧
    ∃ c trees f, matchRule (nestingBound s.toList) false .ident ⟨0, s.toList⟩ {} = .matched c trees f ∧ c.rest = []

/-- A character that continues an identifier, for the scanner and the grammar. -/
def isNameChar (c : Char) : Bool := isIdentRest c && isWordChar c

/-! ## What is read -/

theorem piece_underscore (cs : List Char) : piece '_' cs = .ok (.lexeme .ident ('_' :: cs.takeWhile isIdentRest)) := by
  have plain : wordKind ('_' :: cs.takeWhile isIdentRest) = .ident := by
    have starts : ∀ w ∈ Token.keywords, w.toList.head? ≠ some '_' := by decide
    exact if_neg fun keyword => starts _ keyword (by simp)
  rw [← plain]
  rfl

/-- What starts with an underscore is scanned as one identifier if it has
nothing but characters of identifiers. -/
theorem scan_underscore (hs : s.toList = '_' :: cs) :
    (∃ o, scan .plain s = ⟨[⟨.ident, s, ⟨0, o⟩⟩, autoSemicolon o, ⟨.endOfText, "", ⟨o, o⟩⟩], none⟩) ↔
      ∀ c ∈ cs, isIdentRest c = true := by
  have pieces : lex s.toList = (.lexeme .ident ('_' :: cs.takeWhile isIdentRest) ::
      (lexFrom 0 (cs.drop (cs.takeWhile isIdentRest).length)).1, (lexFrom 0 (cs.drop (cs.takeWhile isIdentRest).length)).2) := by
    rw [hs, lex, lexFrom, piece_underscore]
    simp [Piece.text, lexFrom_eq_drop (cs.takeWhile isIdentRest).length]
  constructor
  · rintro ⟨o, h⟩
    rw [scan, pieces] at h
    have first := congrArg (fun r : Scan => r.tokens.head?.map Token.text) h
    have text : '_' :: cs.takeWhile isIdentRest = '_' :: cs := by
      rw [← hs]
      simpa [scanFrom, ← String.toList_inj] using first
    rw [← (List.cons.inj text).2]
    exact all_eq_true.mp all_takeWhile
  · intro all
    have whole : cs.takeWhile isIdentRest = cs := by
      rwa [takeWhile_eq_self_iff]
    rw [scan, pieces, whole, drop_length, ← hs]
    exact ⟨byteLength s.toList, by simp [lexFrom, scanFrom, Token.endsLine, ScanMode.quiet, Piece.text]⟩

theorem match_underscore (hs : s.toList = '_' :: cs) :
    (∃ c trees f, matchRule (nestingBound s.toList) false .ident ⟨0, s.toList⟩ {} = .matched c trees f ∧ c.rest = []) ↔
      ∀ c ∈ cs, isWordChar c = true := by
  obtain ⟨d, hd⟩ : ∃ d, nestingBound s.toList = d + 2 := ⟨nestingBound s.toList - 2, by rw [nestingBound]; omega⟩
  rw [hd, hs]
  obtain ⟨c', ts, f', rest, -⟩ := Pattern.identRest.star_rounds (matchRule (d + 1)) true ⟨1, cs⟩ {}
  have keyword : matchRule (d + 1) true .keyword ⟨0, '_' :: cs⟩ {} = .failed {} := rfl
  have run : Rule.ident.body.run (matchRule (d + 1)) true ⟨0, '_' :: cs⟩ {} = .matched c' ts f' := by
    have start : Pattern.identStart.run (matchRule (d + 1)) true ⟨0, '_' :: cs⟩ {} = .matched ⟨1, cs⟩ [] {} := rfl
    show Pattern.run _ _ (.seq (.not (.rule .keyword)) (.seq Pattern.identStart (.star Pattern.identRest))) _ _ = _
    rw [Pattern.run, Pattern.run, Pattern.run, keyword]
    dsimp only
    rw [Pattern.run]
    simp only [if_true, start, rest, nil_append]
  have whole : matchRule (d + 2) false .ident ⟨0, '_' :: cs⟩ {} = .matched c' [.node .ident 0 (takeBytes (c'.offset - 0) ('_' :: cs)) []] f' := by
    rw [matchRule, Bool.false_or, show Rule.ident.isToken = true from rfl, run]
    rfl
  obtain ⟨read, moves, hread⟩ := Rule.ident_reads run
  have ends := Rule.word_ends (r := .ident) rfl (by decide) run
  rw [whole]
  constructor
  · rintro ⟨_, _, _, h, none⟩ c hc
    cases h
    have rest := moves.rest
    rw [none, append_nil] at rest
    exact hread c (rest ▸ mem_cons_of_mem _ hc)
  · intro all
    refine ⟨c', _, f', rfl, ?_⟩
    cases hrest : c'.rest with
    | nil => rfl
    | cons x rest =>
      have mem : x ∈ '_' :: cs := by
        rw [show '_' :: cs = _ from moves.rest, hrest]
        exact mem_append_right _ mem_cons_self
      have word : isWordChar x = true := by
        rcases mem_cons.mp mem with rfl | mem
        · decide
        · exact all x mem
      exact absurd word (by simp [ends x (by simp [hrest])])

theorem isIdentifier_underscore (hs : s.toList = '_' :: cs) : IsIdentifier s ↔ ∀ c ∈ cs, isNameChar c = true := by
  rw [IsIdentifier, scan_underscore hs, match_underscore hs]
  simp only [isNameChar, Bool.and_eq_true]
  exact ⟨fun h c hc => ⟨h.1 c hc, h.2 c hc⟩, fun h => ⟨fun c hc => (h c hc).1, fun c hc => (h c hc).2⟩⟩

theorem isNameChar_digit (h : c.isDigit = true) : isNameChar c = true := by
  have ascii : c.toNat < 128 := by
    simp only [Char.isDigit, Bool.and_eq_true, decide_eq_true_eq] at h
    have := UInt32.le_iff_toNat_le.mp h.2
    exact Nat.lt_of_le_of_lt this (by decide)
  simp [isNameChar, isIdentRest, isWordChar, isAlphanumeric, CharClass.contains, isDecimal, ascii, h]

/-- A temporary is an identifier if the word for its type has nothing but
characters of identifiers. -/
theorem temporaryName_identifier (word : String) (n : Nat) :
    IsIdentifier (temporaryName word n) ↔ ∀ c ∈ word.toList, isNameChar c = true := by
  have digits : ∀ c ∈ (toString n).toList, isNameChar c = true := by
    have : (toString n).toList = Nat.toDigits 10 n := by simp
    rw [this]
    exact fun c hc => isNameChar_digit (Nat.isDigit_of_mem_toDigits (by decide) (by decide) hc)
  have start : "go2".toList.all isNameChar = true := by decide +kernel
  have text : (temporaryName word n).toList = '_' :: ("go2".toList ++ word.toList ++ (toString n).toList) := by
    simp [temporaryName, reservedStart]
  rw [isIdentifier_underscore text, forall_mem_append, forall_mem_append]
  exact ⟨fun h => h.1.2, fun h => ⟨⟨all_eq_true.mp start, h⟩, digits⟩⟩

/-! ## Words of types -/

/-- The parts of the shape are parts of the text. -/
def TypeText.Within (t : List Char) : TypeText → Prop
  | .map key value => key ++ value ⊆ t
  | .slice elem | .array elem | .pointer elem | .qualified elem | .plain elem => elem ⊆ t
  | .word text => text ∈ ["func", "struct", "iface"]

theorem after?_subset {t u : List Char} (h : after? c t = some u) : u ⊆ t := by
  induction t with
  | nil => cases h
  | cons d t ih =>
    rw [after?] at h
    split at h
    · cases h
      exact subset_cons_self d _
    · exact subset_cons_of_subset d (ih h)

theorem splitKey_subset {depth : Nat} {t key value : List Char} (h : splitKey depth t = some (key, value)) :
    key ++ value ⊆ t := by
  induction t generalizing depth key value with
  | nil => cases h
  | cons d t ih =>
    rw [splitKey] at h
    split at h
    · cases h
      exact subset_cons_self d t
    · obtain ⟨⟨k, v⟩, hkv, heq⟩ := Option.map_eq_some_iff.mp h
      cases heq
      exact cons_subset_cons d (ih hkv)

theorem trim_subset (t : List Char) : trim t ⊆ t := by
  intro c hc
  simp only [trim, trimEnd, trimStart] at hc
  exact (dropWhile_sublist _).subset (mem_reverse.mp ((dropWhile_sublist _).subset (mem_reverse.mp hc)))

theorem TypeText.within_of {t : List Char} {shape : TypeText} (h : TypeText.of (trim t) = shape) : shape.Within t := by
  subst h
  have sub := trim_subset t
  generalize trim t = u at sub
  have start {start : String} {rest : List Char} (h : afterStart? start u = some rest) : rest ⊆ t := by
    unfold afterStart? at h
    split at h <;> cases h
    exact List.Subset.trans (drop_subset _ _) sub
  unfold TypeText.of
  split
  · rename_i hrest
    split
    · rename_i hkv
      exact List.Subset.trans (splitKey_subset hkv) (start hrest)
    · exact start hrest
  · split
    · exact (cons_subset.mp (cons_subset.mp sub).2).2
    · split
      · rename_i helem
        exact List.Subset.trans (after?_subset helem) (cons_subset.mp sub).2
      · exact sub
    · exact (cons_subset.mp sub).2
    · repeat' split
      all_goals first
        | exact sub
        | (rename_i hname; exact List.Subset.trans (after?_subset hname) sub)
        | simp [Within]

/-- A character of the word for a text continues an identifier, or it is, maybe
in upper case, such a character of the text for the scanner. -/
def Sanitized (t : List Char) (c : Char) : Prop :=
  isNameChar c = true ∨ ∃ d ∈ t, isIdentRest d = true ∧ (c = d ∨ c ∈ uppercase d)

/-- A word for a text. Its first character is not in upper case yet. -/
structure Words (t w : List Char) : Prop where
  chars : ∀ c ∈ w, Sanitized t c
  head : ∀ a ∈ w.head?, (∀ c ∈ uppercase a, isNameChar c = true) ∨ a ∈ t ∧ isIdentRest a = true

variable {t u v w : List Char}

theorem Sanitized.mono (h : Sanitized u c) (sub : u ⊆ t) : Sanitized t c :=
  h.imp_right fun ⟨d, hd, same⟩ => ⟨d, sub hd, same⟩

theorem Words.capitalize (h : Words u w) (sub : u ⊆ t) : ∀ c ∈ capitalize w, Sanitized t c := by
  cases w with
  | nil => exact nofun
  | cons a w =>
    refine forall_mem_append.mpr ⟨fun c hc => ?_, fun c hc => ?_⟩
    · rcases h.head a rfl with named | ⟨ha, rest⟩
      · exact .inl (named c hc)
      · exact .inr ⟨a, sub ha, rest, .inr hc⟩
    · exact (h.chars c (mem_cons_of_mem a hc)).mono sub

/-- A fixed text in front of what is sanitized. -/
theorem Words.literal {start : String} (named : start.toList.all isNameChar = true)
    (upper : start.toList.head?.any (fun a => (uppercase a).all isNameChar) = true) (rest : ∀ c ∈ v, Sanitized t c) :
    Words t (start.toList ++ v) := by
  have fixed : ∀ c ∈ start.toList, Sanitized t c := fun c hc => .inl (all_eq_true.mp named c hc)
  refine ⟨forall_mem_append.mpr ⟨fixed, rest⟩, fun a ha => .inl ?_⟩
  cases h : start.toList with
  | nil => simp [h] at upper
  | cons b cs =>
    obtain rfl : b = a := by simpa [h] using ha
    simpa [h] using upper

theorem plainWord_words (sub : u ⊆ t) : Words t (plainWord u) := by
  unfold plainWord
  extract_lets cleaned
  split
  · rw [← append_nil "value".toList]
    exact .literal (by decide +kernel) (by decide +kernel) nofun
  · have kept : ∀ c ∈ cleaned, c ∈ t ∧ isIdentRest c = true := fun c hc =>
      ⟨sub (mem_filter.mp hc).1, (mem_filter.mp hc).2⟩
    exact ⟨fun c hc => .inr ⟨c, (kept c hc).1, (kept c hc).2, .inl rfl⟩, fun a ha => .inr (kept a (mem_of_head? ha))⟩

/-- What is put together is sanitized, part by part. -/
theorem varWord_words (t : List Char) : Words t (varWord t) := by
  fun_induction varWord t with
  | case1 t key value h ihk ihv =>
    obtain ⟨hkey, hvalue⟩ := append_subset.mp (TypeText.within_of h)
    have named : "To".toList.all isNameChar = true := by decide +kernel
    have between : ∀ c ∈ "To".toList, Sanitized t c := fun c hc => .inl (all_eq_true.mp named c hc)
    rw [append_assoc, append_assoc]
    exact .literal (by decide +kernel) (by decide +kernel) (forall_mem_append.mpr
      ⟨ihk.capitalize hkey, forall_mem_append.mpr ⟨between, ihv.capitalize hvalue⟩⟩)
  | case2 t elem h ih | case3 t elem h ih | case4 t elem h ih =>
    exact .literal (by decide +kernel) (by decide +kernel) (ih.capitalize (TypeText.within_of h))
  | case5 t name h ih =>
    have sub := TypeText.within_of h
    exact ⟨fun c hc => (ih.chars c hc).mono sub, fun a ha => (ih.head a ha).imp_right fun ⟨mem, rest⟩ => ⟨sub mem, rest⟩⟩
  | case6 t text h =>
    have fixed : text ∈ ["func", "struct", "iface"] := TypeText.within_of h
    rw [← append_nil text.toList]
    have both : ∀ w ∈ ["func", "struct", "iface"], w.toList.all isNameChar = true ∧
        w.toList.head?.any (fun a => (uppercase a).all isNameChar) = true := by decide +kernel
    exact .literal (both _ fixed).1 (both _ fixed).2 nofun
  | case7 t text h => exact plainWord_words (TypeText.within_of h)

/-- The types of the values that a check splits. -/
def Ty.results : Ty → List Ty
  | .tuple items => items
  | t => [t]

/-- **When temporaries are identifiers.** The temporaries for the results of a
check are identifiers if and only if every character of the words for the results
continues one. A character that does not comes from one in the text of a type: that
one continues an identifier for the scanner only, or it was put into upper case. -/
theorem resultNames_identifiers {info : TypeInfo} {ty : Ty} {names : List String}
    (h : resultNames info ty = .ok names) :
    ((∀ name ∈ names, ∀ n, IsIdentifier (temporaryName name n)) ↔
      ∀ name ∈ names, ∀ c ∈ name.toList, isNameChar c = true) ∧
    ∀ name ∈ names, ∀ c ∈ name.toList, isNameChar c = false → ∃ t ∈ ty.results, ∃ d ∈ t.text.toList,
      isIdentRest d = true ∧ (isWordChar d = false ∨ c ∈ uppercase d) := by
  refine ⟨⟨fun all name hname => (temporaryName_identifier name 0).mp (all name hname 0),
    fun all name hname n => (temporaryName_identifier name n).mpr (all name hname)⟩, ?_⟩
  have error : "error".toList.all isNameChar = true := by decide +kernel
  intro name hname c hc bad
  have word : name = "error" ∨ ∃ t ∈ ty.results, name = varName t.text := by
    unfold resultNames at h
    repeat' split at h
    all_goals cases h
    · obtain ⟨t, ht, rfl⟩ := mem_map.mp hname
      exact .inr ⟨t, ht, rfl⟩
    · exact .inl (mem_singleton.mp hname)
  rcases word with rfl | ⟨t, ht, rfl⟩
  · rw [all_eq_true.mp error c hc] at bad
    cases bad
  · rw [varName, String.toList_ofList] at hc
    rcases (varWord_words _).chars c hc with named | ⟨d, hd, rest, rfl | upper⟩
    · rw [named] at bad
      cases bad
    · rw [isNameChar, rest, Bool.true_and] at bad
      exact ⟨t, ht, c, hd, rest, .inl bad⟩
    · exact ⟨t, ht, d, hd, rest, .inr upper⟩

theorem resultNames_identifiers_pointer : IsIdentifier (temporaryName "ptrFile" 0) := by
  have named : ["ptrFile", "error"].all (fun name => name.toList.all isNameChar) = true := by decide +kernel
  have words : [varName "*os.File", varName "error"] = ["ptrFile", "error"] := by decide +kernel
  have names : resultNames {} (.tuple [.pointer (.named "os" "File"), .error]) = .ok ["ptrFile", "error"] :=
    congrArg Except.ok words
  refine (resultNames_identifiers names).1.mpr (fun name hname => ?_) "ptrFile" (by decide) 0
  exact all_eq_true.mp (all_eq_true.mp named name hname)

/-- The upper-case form of a letter has two marks behind the letter. -/
theorem temporaryName_marked : (matchInput .ident "\u0390").toOption.map (·.map Tree.text) = some [['\u0390']] ∧
    resultNames {} (.tuple [.pointer (.named "" "\u0390"), .error]) = .ok ["ptr\u0399\u0308\u0301", "error"] ∧
    ¬ IsIdentifier (temporaryName "ptr\u0399\u0308\u0301" 0) := by
  have words : [varName "*\u0390", varName "error"] = ["ptr\u0399\u0308\u0301", "error"] := by decide +kernel
  refine ⟨by decide +kernel, congrArg Except.ok words, fun identifier => ?_⟩
  exact absurd ((temporaryName_identifier _ 0).mp identifier '\u0308' (by decide)) (by decide +kernel)

end CheckHandle
