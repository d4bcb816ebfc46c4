import CheckHandle.Proofs.Quoting
import CheckHandle.Token.Lexer
import CheckHandle.Ty.Printer
import CheckHandle.Ty.VarName

/-!
# The words of types

The word for values of a type is read off the text of the type: by how it
starts, by the first bracket that closes, by the first dot, and for the key of a
map by counting brackets. Brackets are balanced in the text of every type, so the
word follows the structure of the type.
-/

namespace CheckHandle

open Text Lexer List

/-- A word of letters, digits and underscores. -/
def IsWord (s : String) : Prop := s.toList ≠ [] ∧ ∀ c ∈ s.toList, isIdentRest c = true

/-- Neither of the brackets that are counted. -/
def isFree (c : Char) : Bool := c != '[' && c != ']'

mutual

/-- Declared types and packages are named by words, and no name of a field or
of a method has a bracket. -/
def Ty.Named : Ty → Prop
  | .basic _ => True
  | .named package name => (package = "" ∨ IsWord package) ∧ IsWord name
  | .pointer elem | .slice elem | .array _ elem => elem.Named
  | .map key value => key.Named ∧ value.Named
  | .func sig => sig.Named
  | .struct fields => FieldsNamed fields
  | .interface methods embeds => MethodsNamed methods ∧ TysNamed embeds
  | .tuple items => TysNamed items

def FuncTy.Named : FuncTy → Prop
  | ⟨params, results, _⟩ => TysNamed params ∧ TysNamed results

def TysNamed : List Ty → Prop
  | [] => True
  | t :: ts => t.Named ∧ TysNamed ts

def FieldsNamed : List StructField → Prop
  | [] => True
  | ⟨name, ty, _⟩ :: fs => name.toList.all isFree ∧ ty.Named ∧ FieldsNamed fs

def MethodsNamed : List Method → Prop
  | [] => True
  | ⟨name, sig⟩ :: ms => name.toList.all isFree ∧ sig.Named ∧ MethodsNamed ms

end

/-- A word with a label in front of it. -/
def labelled (label : String) (word : List Char) : List Char := label.toList ++ capitalize word

namespace Ty

/-- No tuple stands outside functions, structures and interfaces. -/
def untupled : Ty → Bool
  | .pointer elem | .slice elem | .array _ elem => elem.untupled
  | .map key value => key.untupled && value.untupled
  | .tuple _ => false
  | _ => true

/-- The word for values of the type. -/
def word : Ty → List Char
  | .basic b => b.name.toList.filter (· != ' ')
  | .named _ name => name.toList
  | .pointer elem => labelled "ptr" elem.word
  | .slice elem => labelled "slc" elem.word
  | .array _ elem => labelled "arr" elem.word
  | .map key value => labelled "mapOf" key.word ++ labelled "To" value.word
  | .func _ => "func".toList
  | .struct _ => "struct".toList
  | .interface .. => "iface".toList
  | .tuple _ => []

end Ty

/-! ## Brackets -/

/-- A cut at the end of a key passes over the text. -/
def EvenBrackets (s : String) : Prop := ∀ depth rest,
  splitKey depth (s.toList ++ rest) = (splitKey depth rest).map fun (key, value) => (s.toList ++ key, value)

/-- A text without brackets, however deep in brackets it stands. -/
theorem splitKey_free {u : List Char} (h : u.all isFree = true) (depth : Nat) (rest : List Char) :
    splitKey depth (u ++ rest) = (splitKey depth rest).map fun (key, value) => (u ++ key, value) := by
  induction u with
  | nil =>
    rw [nil_append]
    cases splitKey depth rest <;> rfl
  | cons c u ih =>
    obtain ⟨hc, hu⟩ := Bool.and_eq_true_iff.mp h
    simp only [isFree, Bool.and_eq_true, bne_iff_ne] at hc
    simp only [cons_append, splitKey, beq_eq_false_iff_ne.mpr hc.1, beq_eq_false_iff_ne.mpr hc.2, Bool.false_and,
      Bool.false_eq_true, if_false, ih hu, Option.map_map]
    rfl

namespace EvenBrackets

variable {s t : String}

theorem free (h : s.toList.all isFree = true) : EvenBrackets s := splitKey_free h

theorem append (hs : EvenBrackets s) (ht : EvenBrackets t) : EvenBrackets (s ++ t) := by
  intro depth rest
  rw [String.toList_append, append_assoc, hs, ht, Option.map_map]
  simp only [append_assoc]
  rfl

theorem bracket (start : String) {u : List Char} (opens : start.toList = u ++ ['[']) (hu : u.all isFree = true)
    (hs : EvenBrackets s) : EvenBrackets (start ++ s ++ "]") := by
  intro depth rest
  have closing : splitKey (depth + 1) (']' :: rest) =
      (splitKey depth rest).map fun (key, value) => (']' :: key, value) := rfl
  have opening : splitKey depth ('[' :: (s.toList ++ ']' :: rest)) =
      (splitKey (depth + 1) (s.toList ++ ']' :: rest)).map fun (key, value) => ('[' :: key, value) := rfl
  simp only [String.toList_append, opens, append_assoc, splitKey_free hu]
  change ((splitKey depth ('[' :: (s.toList ++ ']' :: rest))).map _) = _
  rw [opening, hs, closing]
  simp only [Option.map_map]
  rfl

theorem intercalate {l : List String} (h : ∀ s ∈ l, EvenBrackets s) (hs : s.toList.all isFree = true) :
    EvenBrackets (s.intercalate l) := by
  induction l with
  | nil => exact .free rfl
  | cons t l ih =>
    obtain ⟨ht, hl⟩ := forall_mem_cons.mp h
    cases l with
    | nil => rwa [String.intercalate_singleton]
    | cons u l =>
      rw [String.intercalate_cons_cons]
      exact (ht.append (.free hs)).append (ih hl)

theorem listed {l : List String} {opening closing : String} (ho : opening.toList.all isFree = true)
    (hs : s.toList.all isFree = true) (hc : closing.toList.all isFree = true) (h : ∀ s ∈ l, EvenBrackets s) :
    EvenBrackets (opening ++ s.intercalate l ++ closing) :=
  .append (.append (.free ho) (.intercalate h hs)) (.free hc)

end EvenBrackets

theorem toString_free (n : Nat) : (toString n).toList.all isFree = true := by
  have digits : (toString n).toList = Nat.toDigits 10 n := by simp
  rw [digits, all_eq_true]
  intro c hc
  have digit := Nat.isDigit_of_mem_toDigits (by decide) (by decide) hc
  rw [isFree, Bool.and_eq_true, bne_iff_ne, bne_iff_ne]
  constructor <;> (rintro rfl; cases digit)

theorem IsWord.free {s : String} (h : IsWord s) : s.toList.all isFree = true := by
  rw [all_eq_true]
  intro c hc
  have word := h.2 c hc
  rw [isFree, Bool.and_eq_true, bne_iff_ne, bne_iff_ne]
  constructor <;> (rintro rfl; revert word; decide +kernel)

mutual

theorem Ty.balanced : ∀ {t : Ty}, t.Named → EvenBrackets t.text
  | .basic b, _ => .free (by cases b <;> decide)
  | .named package name, h => by
    rw [Ty.text, qualifiedName]
    split
    · exact .free h.2.free
    · rename_i qualified
      have package := h.1.resolve_left (fun empty => qualified (by simp [empty]))
      exact .append (.append (.free package.free) (.free rfl)) (.free h.2.free)
  | .pointer _, h => .append (.free rfl) (Ty.balanced h)
  | .slice _, h => .append (.bracket "[" (u := []) (s := "") rfl rfl (.free rfl)) (Ty.balanced h)
  | .array (some n) _, h => .append (.bracket "[" (u := []) rfl rfl (.free (toString_free n))) (Ty.balanced h)
  | .array none _, h => .append (.bracket "[" (u := []) (s := "...") rfl rfl (.free rfl)) (Ty.balanced h)
  | .map _ _, h => .append (.bracket "map[" (u := ['m', 'a', 'p']) rfl rfl (Ty.balanced h.1)) (Ty.balanced h.2)
  | .func _, h => .append (.free rfl) (FuncTy.balanced h)
  | .struct _, h => .listed rfl rfl rfl (balanced_fields h)
  | .interface _ _, h => .listed rfl rfl rfl (forall_mem_append.mpr ⟨balanced_tys h.2, balanced_methods h.1⟩)
  | .tuple _, h => .listed rfl rfl rfl (balanced_tys h)

theorem FuncTy.balanced : ∀ {sig : FuncTy}, sig.Named → EvenBrackets sig.text
  | ⟨_, [], _⟩, h => by
    rw [FuncTy.text]
    exact .append (.listed rfl rfl rfl (balanced_params _ h.1)) (.free rfl)
  | ⟨_, [_], _⟩, h => by
    rw [FuncTy.text]
    exact .append (.listed rfl rfl rfl (balanced_params _ h.1)) (.append (.free rfl) (Ty.balanced h.2.1))
  | ⟨_, _ :: _ :: _, _⟩, h => by
    rw [FuncTy.text]
    · exact .append (.listed rfl rfl rfl (balanced_params _ h.1)) (.listed rfl rfl rfl (balanced_tys h.2))
    · simp
    · simp

theorem balanced_tys : ∀ {ts : List Ty}, TysNamed ts → ∀ s ∈ tyTexts ts, EvenBrackets s
  | [], _ => nofun
  | _ :: _, h => forall_mem_cons.mpr ⟨Ty.balanced h.1, balanced_tys h.2⟩

theorem balanced_params (variadic : Bool) : ∀ {ts : List Ty}, TysNamed ts → ∀ s ∈ paramTexts variadic ts, EvenBrackets s
  | [], _ => nofun
  | t :: ts, h => by
    have others := forall_mem_cons.mpr ⟨Ty.balanced h.1, balanced_params variadic h.2⟩
    rw [paramTexts.eq_def]
    split
    · exact forall_mem_nil _
    · rename_i elem heq
      cases heq
      cases variadic with
      | true => exact forall_mem_cons.mpr ⟨.append (.free rfl) (Ty.balanced h.1), forall_mem_nil _⟩
      | false => exact forall_mem_cons.mpr ⟨Ty.balanced h.1, forall_mem_nil _⟩
    · rename_i heq
      cases heq
      exact others

theorem balanced_fields : ∀ {fs : List StructField}, FieldsNamed fs → ∀ s ∈ fieldTexts fs, EvenBrackets s
  | [], _ => nofun
  | ⟨name, ty, embedded⟩ :: fs, h => by
    refine forall_mem_cons.mpr ⟨?_, balanced_fields h.2.2⟩
    split
    · exact Ty.balanced h.2.1
    · exact .append (.append (.free h.1) (.free rfl)) (Ty.balanced h.2.1)

theorem balanced_methods : ∀ {ms : List Method}, MethodsNamed ms → ∀ s ∈ methodTexts ms, EvenBrackets s
  | [], _ => nofun
  | ⟨_, _⟩ :: _, h =>
    forall_mem_cons.mpr ⟨.append (.free h.1) (FuncTy.balanced h.2.1), balanced_methods h.2.2⟩

end

/-! ## Reading the text -/

section Reading

variable {t u v : List Char} {c d : Char}

/-- The word that is read off a shape. -/
def TypeText.varWord : TypeText → List Char
  | .map key value => labelled "mapOf" (CheckHandle.varWord key) ++ labelled "To" (CheckHandle.varWord value)
  | .slice elem => labelled "slc" (CheckHandle.varWord elem)
  | .array elem => labelled "arr" (CheckHandle.varWord elem)
  | .pointer elem => labelled "ptr" (CheckHandle.varWord elem)
  | .qualified name => CheckHandle.varWord name
  | .word text => text.toList
  | .plain text => plainWord text

theorem varWord_eq (t : List Char) : varWord t = (TypeText.of (trim t)).varWord := by
  rw [varWord]
  split <;> (rename_i h; rw [h]; first | rfl | exact append_assoc ..)

theorem isBlank_of_isIdentRest (h : isIdentRest c = true) : isBlank c = false :=
  isBlank_of_not (by decide +kernel) h

theorem dropWhile_blank (hd : isBlank d = false) : (u ++ d :: v).dropWhile isBlank = u.dropWhile isBlank ++ d :: v := by
  induction u with
  | nil => simp [hd]
  | cons c u ih => cases hc : isBlank c <;> simp [hc, ih]

theorem trimEnd_append (hd : isBlank d = false) : trimEnd (u ++ d :: v) = u ++ d :: trimEnd v := by
  simp [trimEnd, dropWhile_blank hd]

/-- Nothing is trimmed before the last character that is known not to be blank. -/
theorem trim_append (hd : isBlank d = false) (head : (u ++ [d]).head?.all (!isBlank ·) = true) :
    trim (u ++ d :: v) = u ++ d :: trimEnd v := by
  have start : trimStart (u ++ d :: v) = u ++ d :: v := by
    cases u with
    | nil => simp [trimStart, hd]
    | cons c u => simp_all [trimStart]
  rw [trim, start, trimEnd_append hd]

theorem trimStart_blank (h : ∀ c ∈ v, isBlank c = true) : trimStart v = [] := by
  induction v with
  | nil => rfl
  | cons c v ih => exact (dropWhile_cons_of_pos (h c mem_cons_self)).trans (ih fun d hd => h d (mem_cons_of_mem c hd))

theorem trimEnd_blank (h : ∀ c ∈ v, isBlank c = true) : trimEnd v = [] :=
  reverse_eq_nil_iff.mpr (trimStart_blank fun c hc => h c (mem_reverse.mp hc))

/-- A text is blank, or it has a last character that is not. -/
theorem blank_or_last (v : List Char) : (∀ c ∈ v, isBlank c = true) ∨
    ∃ u d w, v = u ++ d :: w ∧ isBlank d = false ∧ ∀ c ∈ w, isBlank c = true := by
  induction v with
  | nil => exact .inl (forall_mem_nil _)
  | cons c v ih =>
    rcases ih with blank | ⟨u, d, w, rfl, hd, blank⟩
    · cases hc : isBlank c with
      | true => exact .inl (forall_mem_cons.mpr ⟨hc, blank⟩)
      | false => exact .inr ⟨[], c, v, rfl, hc, blank⟩
    · exact .inr ⟨c :: u, d, w, rfl, hd, blank⟩

theorem trim_trimEnd (v : List Char) : trim (trimEnd v) = trim v := by
  rcases blank_or_last v with blank | ⟨u, d, w, rfl, hd, blank⟩
  · rw [trimEnd_blank blank, trim, trim, trimStart_blank blank]
    rfl
  · rw [trimEnd_append hd, trim, trim, trimStart, trimStart, dropWhile_blank hd, dropWhile_blank hd,
      trimEnd_append hd, trimEnd_append hd, trimEnd_blank blank]
    rfl

/-- A text is read by its shape, whatever blanks are at its end. -/
theorem varWord_append (v : List Char) (hd : isBlank d = false) (head : (u ++ [d]).head?.all (!isBlank ·) = true) :
    varWord (u ++ d :: v) = (TypeText.of (u ++ d :: trimEnd v)).varWord ∧ varWord (trimEnd v) = varWord v := by
  rw [varWord_eq, trim_append hd head, varWord_eq, trim_trimEnd, varWord_eq v]
  exact ⟨rfl, rfl⟩

theorem after?_append (h : c ∉ u) : after? c (u ++ c :: v) = some v := by
  induction u with
  | nil => simp [after?]
  | cons d u ih =>
    rw [cons_append, after?, if_neg (by grind), ih (by grind)]

theorem after?_none (h : c ∉ u) : after? c u = none := by
  induction u with
  | nil => rfl
  | cons d u ih => rw [after?, if_neg (by grind), ih (by grind)]

theorem afterStart?_none {start : String} (hc : c ∈ start.toList) (h : c ∉ t) : afterStart? start t = none := by
  rw [afterStart?, if_neg]
  intro found
  have starts := isPrefixOf_iff_prefix.mp found
  exact h (starts.subset hc)

/-- A text of words and dots. -/
def Dotted (t : List Char) : Prop := ∀ c ∈ t, isIdentRest c = true ∨ c = '.'

/-- A word, or a word after a word and a dot, has no other shape. -/
theorem TypeText.of_name (h : Dotted t) :
    TypeText.of t = ((after? '.' t).map TypeText.qualified).getD (.plain t) := by
  have absent : ['[', '*', '(', '\x7b'].any (fun c => isIdentRest c || c == '.') = false := by decide +kernel
  have special : ∀ c ∈ ['[', '*', '(', '\x7b'], c ∉ t := fun c hc mem =>
    any_eq_false.mp absent c hc (by simpa using h c mem)
  have map : afterStart? "map[" t = none := afterStart?_none (c := '[') (by decide) (special _ (by decide))
  have func : afterStart? "func(" t = none := afterStart?_none (c := '(') (by decide) (special _ (by decide))
  have struct : afterStart? "struct\x7b" t = none := afterStart?_none (c := '\x7b') (by decide) (special _ (by decide))
  have iface : afterStart? "interface\x7b" t = none := afterStart?_none (c := '\x7b') (by decide) (special _ (by decide))
  unfold TypeText.of
  simp only [map, func, struct, iface]
  split
  · exact absurd mem_cons_self (special '[' (by decide))
  · exact absurd mem_cons_self (special '[' (by decide))
  · exact absurd mem_cons_self (special '*' (by decide))
  · cases after? '.' t <;> rfl

theorem trim_name (h : Dotted t) : trim t = t :=
  trim_eq_self fun c hc => (h c hc).elim isBlank_of_isIdentRest fun dot => dot ▸ rfl

theorem IsWord.dotless {s : String} (h : IsWord s) : '.' ∉ s.toList := fun mem =>
  absurd (h.2 _ mem) (by decide +kernel)

theorem IsWord.varWord {s : String} (h : IsWord s) : varWord s.toList = s.toList := by
  have name : Dotted s.toList := fun c hc => .inl (h.2 c hc)
  have kept : s.toList.filter (fun c => isAlphanumeric c || c == '_') = s.toList := filter_eq_self.mpr h.2
  rw [varWord_eq, trim_name name, TypeText.of_name name, after?_none h.dotless]
  simp [TypeText.varWord, plainWord, kept, h.1]

theorem varWord_qualified {s t : String} (hs : IsWord s) (ht : IsWord t) :
    varWord (s ++ "." ++ t).toList = t.toList := by
  have name : Dotted (s.toList ++ '.' :: t.toList) :=
    forall_mem_append.mpr ⟨fun c hc => .inl (hs.2 c hc), forall_mem_cons.mpr ⟨.inr rfl, fun c hc => .inl (ht.2 c hc)⟩⟩
  rw [show (s ++ "." ++ t).toList = s.toList ++ '.' :: t.toList by simp, varWord_eq, trim_name name,
    TypeText.of_name name, after?_append hs.dotless]
  exact ht.varWord

theorem varWord_array {s : String} (v : List Char) (hs : s.toList.all isFree = true) (ne : s.toList ≠ []) :
    varWord ('[' :: s.toList ++ ']' :: v) = labelled "arr" (varWord v) := by
  obtain ⟨shape, same⟩ := varWord_append (u := '[' :: s.toList) (d := ']') v rfl rfl
  have closing : ']' ∉ s.toList := fun mem => by simpa [isFree] using all_eq_true.mp hs _ mem
  have found := after?_append (v := trimEnd v) closing
  have array : TypeText.of ('[' :: s.toList ++ ']' :: trimEnd v) = .array (trimEnd v) := by
    unfold TypeText.of
    rw [show afterStart? "map[" ('[' :: s.toList ++ ']' :: trimEnd v) = none from rfl]
    cases hs : s.toList <;> grind
  rw [shape, array, TypeText.varWord, same]

theorem varWord_map {k : String} (v : List Char) (hk : EvenBrackets k) :
    varWord ("map[".toList ++ k.toList ++ ']' :: v) =
      labelled "mapOf" (varWord k.toList) ++ labelled "To" (varWord v) := by
  obtain ⟨shape, same⟩ := varWord_append (u := "map[".toList ++ k.toList) (d := ']') v rfl rfl
  have cut : splitKey 0 (k.toList ++ ']' :: trimEnd v) = some (k.toList, trimEnd v) := by
    rw [hk 0 (']' :: trimEnd v)]
    simp [splitKey]
  have map : TypeText.of ("map[".toList ++ (k.toList ++ ']' :: trimEnd v)) = .map k.toList (trimEnd v) := by
    unfold TypeText.of
    rw [show afterStart? "map[" ("map[".toList ++ (k.toList ++ ']' :: trimEnd v)) =
      some (k.toList ++ ']' :: trimEnd v) from rfl]
    simp only [cut]
  rw [shape, append_assoc, map, TypeText.varWord, same]

theorem varWord_text : ∀ (t : Ty), t.Named → t.untupled → varWord t.text.toList = t.word
  | .basic b, _, _ => by
    rw [varWord_eq]
    cases b <;> decide +kernel
  | .named package name, h, _ => by
    rw [Ty.text, qualifiedName]
    split
    · exact h.2.varWord
    · rename_i qualified
      have package := h.1.resolve_left (fun empty => qualified (by simp [empty]))
      exact varWord_qualified package h.2
  | .pointer elem, h, hu => by
    obtain ⟨shape, same⟩ := varWord_append (u := []) (d := '*') elem.text.toList rfl rfl
    rw [Ty.text, String.toList_append, Ty.word, ← varWord_text elem h hu, ← same]
    exact shape
  | .slice elem, h, hu => by
    obtain ⟨shape, same⟩ := varWord_append (u := ['[']) (d := ']') elem.text.toList rfl rfl
    rw [Ty.text, String.toList_append, Ty.word, ← varWord_text elem h hu, ← same]
    exact shape
  | .array (some n) elem, h, hu => by
    rw [Ty.word, ← varWord_text elem h hu, ← varWord_array _ (toString_free n)]
    · simp [Ty.text]
    · simp
  | .array none elem, h, hu => by
    rw [Ty.word, ← varWord_text elem h hu, ← varWord_array (s := "...") _ rfl (by decide)]
    simp [Ty.text]
  | .map key value, h, hu => by
    obtain ⟨keyUntupled, valueUntupled⟩ := Bool.and_eq_true_iff.mp hu
    rw [Ty.word, ← varWord_text key h.1 keyUntupled, ← varWord_text value h.2 valueUntupled,
      ← varWord_map _ (Ty.balanced h.1)]
    simp [Ty.text]
  | .func sig, _, _ => by
    obtain ⟨params, results, variadic⟩ := sig
    rw [Ty.text, FuncTy.text.eq_def]
    simp only [String.toList_append, append_assoc]
    exact (varWord_append (u := "func".toList) (d := '(') _ rfl rfl).1
  | .struct fields, _, _ => by
    simp only [Ty.text, String.toList_append, append_assoc]
    exact (varWord_append (u := "struct".toList) (d := '\x7b') _ rfl rfl).1
  | .interface methods embeds, _, _ => by
    simp only [Ty.text, String.toList_append, append_assoc]
    exact (varWord_append (u := "interface".toList) (d := '\x7b') _ rfl rfl).1

end Reading

/-- The word that is read off the text of a type is the word of the type. -/
theorem varName_text (t : Ty) (named : t.Named) (untupled : t.untupled = true) :
    varName t.text = String.ofList t.word := by
  rw [varName, varWord_text t named untupled]

theorem varName_text_nested :
    varName "map[[2]map[func(...int) (error, []T)]struct\x7ba []T\x7d]*io.Reader" =
      "mapOfArrMapOfFuncToStructToPtrReader" := by
  have words : IsWord "error" ∧ IsWord "T" ∧ IsWord "io" ∧ IsWord "Reader" := by
    refine ⟨?_, ?_, ?_, ?_⟩ <;> exact ⟨by decide, all_eq_true.mp (by decide +kernel)⟩
  exact varName_text
    (.map (.array (some 2) (.map (.func ⟨[.slice (.basic .int)], [.named "" "error", .slice (.named "" "T")], true⟩)
      (.struct [⟨"a", .slice (.named "" "T"), false⟩]))) (.pointer (.named "io" "Reader")))
    (by simp [Ty.Named, FuncTy.Named, TysNamed, FieldsNamed, isFree, words]) rfl

end CheckHandle
