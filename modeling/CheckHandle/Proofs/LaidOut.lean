import CheckHandle.Proofs.Assembly
import CheckHandle.Proofs.Lexing

/-!
# Names in a laid out text

Explicit layout keeps every lexeme where it is and fills the rest. So a text
that was laid out closes its literals, and a name that the grammar reads in it
stands in the text itself: at the start of a word, or inside a number.
-/

namespace CheckHandle

open Text Lexer List

attribute [local simp] Quoting.step quoteOf?_char

/-- What stands for separators in a laid out text. -/
def isFiller (c : Char) : Bool := c == ' ' || c == '\n' || c == ';'

/-- A layout of the pieces: lexemes as they are, and fillers of the same size
for the rest. -/
inductive Laid : List Piece → List Char → Prop where
  | nil : Laid [] []
  | lexeme {ps : List Piece} {cs : List Char} (kind : TokenKind) (text : List Char) (more : Laid ps cs) :
      Laid (.lexeme kind text :: ps) (text ++ cs)
  | gap {p : Piece} {filler : List Char} {ps : List Piece} {cs : List Char}
      (hgap : ∀ kind text, p ≠ .lexeme kind text) (fill : ∀ x ∈ filler, isFiller x = true)
      (size : byteLength filler = byteLength p.text) (more : Laid ps cs) :
      Laid (p :: ps) (filler ++ cs)

theorem blankOut_filler (cs : List Char) : ∀ x ∈ blankOut cs, isFiller x = true := by
  induction cs with
  | nil => nofun
  | cons c cs ih =>
    rw [blankOut]
    refine forall_mem_append.mpr ⟨?_, ih⟩
    split
    · simp [isFiller]
    · intro x hx
      rw [eq_of_mem_replicate hx]
      rfl

theorem byteLength_replicate_space (n : Nat) : byteLength (replicate n ' ') = n := by
  induction n with
  | zero => rfl
  | succ n ih =>
    rw [replicate_succ, byteLength_cons, ih, Nat.add_comm]
    rfl

theorem byteLength_blankOut (cs : List Char) : byteLength (blankOut cs) = byteLength cs := by
  induction cs with
  | nil => rfl
  | cons c cs ih =>
    rw [blankOut, byteLength_append, ih, byteLength_cons]
    split
    · rename_i hc
      rw [eq_of_beq hc]
      rfl
    · rw [byteLength_replicate_space]

variable {ps : List Piece} {kind : TokenKind} {text rest cs xs ys pre w v : List Char} {x : Char}

theorem laid_layoutFrom (hps : ∀ p ∈ ps, p.text ≠ []) (pending : Bool) : Laid ps (layoutFrom pending ps) := by
  induction ps generalizing pending with
  | nil => exact .nil
  | cons p ps ih =>
    obtain ⟨hp, htail⟩ := forall_mem_cons.mp hps
    unfold layoutFrom
    split
    · exact .lexeme _ _ (ih htail _)
    · rename_i hgap
      have hgap : ∀ kind text, p ≠ .lexeme kind text := hgap
      split
      · -- The filler keeps its size, as its first character has one byte.
        have hsize := byteLength_blankOut p.text
        have hfill := blankOut_filler p.text
        cases hblank : blankOut p.text with
        | nil =>
          rw [hblank] at hsize
          obtain ⟨c, cs, hcs⟩ := exists_cons_of_ne_nil hp
          have := c.utf8Size_pos
          rw [hcs] at hsize
          simp at hsize
          omega
        | cons x xs =>
          rw [hblank] at hsize hfill
          obtain ⟨hx, hxs⟩ := forall_mem_cons.mp hfill
          have fill : ∀ y ∈ ';' :: xs, isFiller y = true := forall_mem_cons.mpr ⟨rfl, hxs⟩
          refine .gap hgap fill ?_ (ih htail _)
          rw [← hsize, byteLength_cons, byteLength_cons]
          simp only [isFiller, Bool.or_eq_true, beq_iff_eq] at hx
          rcases hx with (rfl | rfl) | rfl <;> rfl
      · exact .gap hgap (blankOut_filler _) (byteLength_blankOut _) (ih htail _)

/-! ## Literals in a layout -/

/-- A lexeme leaves all literals closed; backslashes are inside them. -/
theorem Piece.Form.quoting (form : (Piece.lexeme kind text).Form rest) : (∀ x ∈ text, Quoting.isPlain x = true) ∨
      ∃ q body, text = q.char :: body ∧ (Quoting.inside q).Ends body := by
  cases form with
  | word start more =>
    refine .inl (forall_mem_cons.mpr ⟨?_, fun x hx => ?_⟩)
    · exact unquoted_of_not (by decide +kernel) start
    · exact unquoted_of_not (by decide +kernel) (more x hx)
  | number _ _ chars => exact .inl fun x hx => unquoted_of_not (by decide +kernel) (chars x hx)
  | literal _ ends => exact .inr ⟨_, _, rfl, ends⟩
  | operator _ known =>
    have plain : (Token.operators.map String.toList).all (·.all Quoting.isPlain) = true := by
      decide +kernel
    exact .inl (all_eq_true.mp (all_eq_true.mp plain _ known))

theorem isPlain_of_isFiller {c : Char} (h : isFiller c = true) : Quoting.isPlain c = true :=
  unquoted_of_not (by decide) h

/-- Every one of these pieces has its form somewhere. -/
def Formed (ps : List Piece) : Prop := ∀ p ∈ ps, ∃ rest, p.Form rest

theorem Reads.formed (h : Reads text ps) : Formed ps := by
  induction h with
  | nil => nofun
  | cons form more ih => exact forall_mem_cons.mpr ⟨⟨_, form⟩, ih⟩

theorem Formed.text_ne_nil (h : Formed ps) : ∀ p ∈ ps, p.text ≠ [] := by
  intro p hp
  obtain ⟨rest, form⟩ := h p hp
  exact form.text_ne_nil

/-- A laid out text leaves all literals closed. -/
theorem Laid.closed (h : Laid ps cs) (formed : Formed ps) : Quoting.after cs = .outside := by
  rw [Quoting.after]
  induction h with
  | nil => rfl
  | @lexeme ps cs kind lexeme more ih =>
    obtain ⟨⟨rest, form⟩, formed'⟩ := forall_mem_cons.mp formed
    rw [foldl_append]
    rcases form.quoting with plain | ⟨q, body, rfl, ends⟩
    · rw [Quoting.foldl_outside_of_plain plain]
      exact ih formed'
    · have hopen : Quoting.outside.step q.char = .inside q := by simp
      rw [foldl_cons, hopen, ends.1]
      exact ih formed'
  | gap hgap fill size more ih =>
    obtain ⟨-, formed⟩ := forall_mem_cons.mp formed
    rw [foldl_append, Quoting.foldl_outside_of_plain fun x hx => isPlain_of_isFiller (fill x hx)]
    exact ih formed

/-- A character of a text in two parts stands in one of them. -/
theorem append_eq_append_cons (h : xs ++ ys = pre ++ x :: rest) :
    (∃ w, pre = xs ++ w ∧ ys = w ++ x :: rest) ∨ ∃ v, xs = pre ++ x :: v ∧ rest = v ++ ys := by
  rcases append_eq_append_iff.mp h with ⟨w, hpre, hys⟩ | ⟨w, hxs, hrest⟩
  · exact .inl ⟨w, hpre, hys⟩
  · cases w with
    | nil => exact .inl ⟨[], by simpa using hxs.symm, hrest.symm⟩
    | cons y w =>
      obtain ⟨rfl, htail⟩ := List.cons.inj hrest
      exact .inr ⟨w, hxs, htail⟩

/-- Where a character that is no filler stands. -/
theorem Laid.locate (h : Laid ps cs) (hx : isFiller x = false) (hcs : cs = pre ++ x :: rest) :
    ∃ ps1 kind u v ps2 pre1 cs2, ps = ps1 ++ .lexeme kind (u ++ x :: v) :: ps2 ∧ Laid ps1 pre1 ∧
      Laid ps2 cs2 ∧ pre = pre1 ++ u ∧ rest = v ++ cs2 := by
  induction h generalizing pre with
  | nil => simp at hcs
  | @lexeme ps cs kind text more ih =>
    rcases append_eq_append_cons hcs with ⟨w, rfl, hmore⟩ | ⟨v, rfl, rfl⟩
    · obtain ⟨ps1, kind', u, v, ps2, pre1, cs2, rfl, h1, h2, rfl, rfl⟩ := ih hmore
      exact ⟨_ :: ps1, kind', u, v, ps2, text ++ pre1, cs2, rfl, .lexeme kind text h1, h2, (append_assoc ..).symm, rfl⟩
    · exact ⟨[], kind, pre, v, ps, [], cs, rfl, .nil, more, rfl, rfl⟩
  | @gap p filler ps cs hgap fill size more ih =>
    rcases append_eq_append_cons hcs with ⟨w, rfl, hmore⟩ | ⟨v, rfl, rfl⟩
    · obtain ⟨ps1, kind', u, v, ps2, pre1, cs2, rfl, h1, h2, rfl, rfl⟩ := ih hmore
      exact ⟨_ :: ps1, kind', u, v, ps2, filler ++ pre1, cs2, rfl, .gap hgap fill size h1, h2,
        (append_assoc ..).symm, rfl⟩
    · rw [fill x (by simp)] at hx
      cases hx

/-- A laid out text has as many bytes as its pieces. -/
theorem Laid.byteLength_eq (h : Laid ps cs) : byteLength cs = byteLength (textOf ps) := by
  induction h with
  | nil => rfl
  | lexeme kind text more ih => rw [textOf, flatMap_cons, byteLength_append, byteLength_append, ih]; rfl
  | gap hgap fill size more ih =>
    rw [textOf, flatMap_cons, byteLength_append, byteLength_append, ih, size]
    rfl

/-- Backslashes of a laid out text are inside literals. -/
theorem Laid.tidy (h : Laid ps cs) (formed : Formed ps) : Tidy cs := by
  intro pre rest hcs
  obtain ⟨ps1, kind, u, v, ps2, pre1, cs2, rfl, h1, -, rfl, -⟩ := h.locate (by decide) hcs
  obtain ⟨formed1, formed2⟩ := forall_mem_append.mp formed
  obtain ⟨rest', form⟩ := formed2 _ mem_cons_self
  rw [Quoting.after_append, h1.closed formed1]
  rcases form.quoting with plain | ⟨q, body, htext, ends⟩
  · exact absurd (plain '\\' (by simp)) (by decide)
  · cases u with
    | nil => exact absurd (List.cons.inj htext).1.symm q.char_ne_backslash
    | cons x u =>
      obtain ⟨rfl, rfl⟩ := List.cons.inj htext
      have hopen : Quoting.outside.step q.char = .inside q := by simp
      rw [foldl_cons, hopen]
      exact ends.2 rfl nofun

/-- Text without fillers stands in the pieces as it stands in their layout. -/
theorem Laid.same (h : Laid ps cs) (hps : ∀ p ∈ ps, p.text ≠ []) (hw : ∀ x ∈ w, isFiller x = false)
    (hcs : cs = w ++ rest) :
    ∃ rest', textOf ps = w ++ rest' := by
  induction h generalizing w with
  | nil =>
    obtain ⟨rfl, rfl⟩ := append_eq_nil_iff.mp hcs.symm
    exact ⟨[], rfl⟩
  | @lexeme ps cs kind text more ih =>
    obtain ⟨-, hps⟩ := forall_mem_cons.mp hps
    rcases append_eq_append_iff.mp hcs with ⟨w', rfl, hmore⟩ | ⟨t, rfl, -⟩
    · obtain ⟨rest', hrest'⟩ := ih hps (fun x hx => hw x (by simp [hx])) hmore
      refine ⟨rest', ?_⟩
      rw [textOf] at hrest' ⊢
      rw [flatMap_cons, hrest', append_assoc]
      rfl
    · exact ⟨t ++ textOf ps, by simp [textOf, Piece.text]⟩
  | @gap p filler ps cs hgap fill size more ih =>
    cases w with
    | nil => exact ⟨_, rfl⟩
    | cons x w =>
      obtain ⟨hp, -⟩ := forall_mem_cons.mp hps
      cases filler with
      | nil =>
        obtain ⟨c, cs, hcs⟩ := exists_cons_of_ne_nil hp
        have := c.utf8Size_pos
        rw [hcs] at size
        simp at size
        omega
      | cons y filler =>
        obtain ⟨rfl, -⟩ := List.cons.inj hcs
        have := fill y (by simp)
        rw [hw y (by simp)] at this
        cases this

/-! ## Names in code -/

/-- A piece that is laid out last. -/
theorem Laid.last {p : Piece} (h : Laid (ps ++ [p]) cs) :
    ∃ cs1 cs2, cs = cs1 ++ cs2 ∧ Laid ps cs1 ∧ ∀ kind text, p = .lexeme kind text → cs2 = text := by
  induction ps generalizing cs with
  | nil =>
    refine ⟨[], cs, rfl, .nil, ?_⟩
    rintro kind text rfl
    cases h with
    | lexeme _ _ more =>
      cases more
      exact append_nil _
    | gap hgap => exact absurd rfl (hgap _ _)
  | cons q ps ih =>
    cases h with
    | lexeme kind text more =>
      obtain ⟨cs1, cs2, rfl, h1, h2⟩ := ih more
      exact ⟨text ++ cs1, cs2, (append_assoc ..).symm, .lexeme kind text h1, h2⟩
    | gap hgap fill size more =>
      obtain ⟨cs1, cs2, rfl, h1, h2⟩ := ih more
      exact ⟨_ ++ cs1, cs2, (append_assoc ..).symm, .gap hgap fill size h1, h2⟩

theorem getLast?_append_of_ne_nil (h : ys ≠ []) : (xs ++ ys).getLast? = ys.getLast? := by
  rcases eq_nil_or_concat ys with rfl | ⟨ys, y, rfl⟩
  · exact absurd rfl h
  · rw [concat_eq_append, ← append_assoc, getLast?_concat, getLast?_concat]

/-- Before a word in code stands no character of a word, if none stands before
it in the layout. -/
theorem Laid.edge {ps1 ps2 : List Piece} (reads : Reads text (ps1 ++ .lexeme kind ('_' :: v) :: ps2)) (h : Laid ps1 pre)
    (edge : ∀ x ∈ pre.getLast?, isIdentRest x = false) :
    ∀ x ∈ (textOf ps1).getLast?, isIdentRest x = false := by
  rcases eq_nil_or_concat ps1 with rfl | ⟨ps1, p, rfl⟩
  · nofun
  rw [concat_eq_append] at h reads ⊢
  obtain ⟨cs1, cs2, rfl, -, hlexeme⟩ := h.last
  rw [append_assoc, singleton_append] at reads
  have form := reads.form
  have hne := form.text_ne_nil
  have hlast : (textOf (ps1 ++ [p])).getLast? = p.text.getLast? := by
    rw [textOf, flatMap_append, flatMap_singleton, getLast?_append_of_ne_nil hne]
  rw [hlast]
  cases p with
  | lexeme kind' text' =>
    have hne : text' ≠ [] := hne
    rw [hlexeme kind' text' rfl, getLast?_append_of_ne_nil hne] at edge
    exact edge
  | newline =>
    rintro x ⟨⟩
    decide +kernel
  | blank c =>
    cases form with
    | blank gap =>
      rintro x ⟨⟩
      rcases gap with rfl | rfl | rfl <;> decide +kernel
  | lineComment text' =>
    -- A line comment is followed by the end of its line.
    cases form with
    | lineComment _ follows => exact absurd (follows '_' rfl) (by decide)
  | blockComment text' =>
    cases form with
    | @blockComment body last ends =>
      have : ('/' :: '*' :: body).getLast? = some '/' := by
        rw [getLast?_cons, getLast?_cons, last]
        rfl
      rw [Piece.text, this]
      rintro x ⟨⟩
      decide +kernel

/-- A lexeme in which a name stands outside literals is code. -/
theorem Piece.Form.shown {u : List Char} (form : (Piece.lexeme kind (u ++ '_' :: v)).Form rest)
    (out : u.foldl Quoting.step .outside = .outside) :
    (Piece.lexeme kind (u ++ '_' :: v)).hidesCode = false := by
  generalize htext : u ++ '_' :: v = text at form
  cases form with
  | word =>
    simp only [Piece.hidesCode, wordKind]
    split <;> rfl
  | number hkind =>
    simp only [mem_cons, not_mem_nil, or_false] at hkind
    rcases hkind with rfl | rfl | rfl <;> rfl
  | @literal q _ body hkind ends =>
    cases u with
    | nil =>
      have := (List.cons.inj htext).1
      exact absurd this (by cases q <;> decide)
    | cons x u =>
      obtain ⟨rfl, rfl⟩ := List.cons.inj htext
      have hopen : Quoting.outside.step q.char = .inside q := by simp
      rw [foldl_cons, hopen] at out
      exact absurd out (ends.2 rfl (by simp))
  | operator hkind => rcases hkind with rfl | rfl <;> rfl

/-- A name that stands outside literals in the layout stands in the code of the
text. -/
theorem Laid.inCode (reads : Reads text ps) (h : Laid ps cs) (hcs : cs = pre ++ '_' :: (w ++ rest))
    (hw : ∀ x ∈ w, isFiller x = false) (out : Quoting.after pre = .outside)
    (edge : ∀ x ∈ pre.getLast?, isIdentRest x = false) :
    ∃ before after, text = before ++ '_' :: (w ++ after) ∧ byteLength before = byteLength pre ∧
      (Scanning.after before).IsCode ∧ ∀ x ∈ before.getLast?, isIdentRest x = false := by
  have formed := reads.formed
  obtain ⟨ps1, kind, u, v, ps2, pre1, cs2, rfl, h1, h2, rfl, hrest⟩ := h.locate (by decide) hcs
  obtain ⟨formed1, formed2⟩ := forall_mem_append.mp formed
  have form := reads.form
  have admits : (Scanning.after (textOf ps1)).Admits _ := reads.admits fun q _ => .inl rfl
  rw [Quoting.after_append, h1.closed formed1] at out
  have shown := form.shown out
  obtain ⟨after, hafter⟩ : ∃ after, v ++ textOf ps2 = w ++ after := by
    rcases append_eq_append_iff.mp hrest with ⟨t, rfl, -⟩ | ⟨w', rfl, hcs2⟩
    · exact ⟨t ++ textOf ps2, by simp⟩
    · obtain ⟨after, hafter⟩ := h2.same (Formed.text_ne_nil fun p hp => formed2 p (by simp [hp]))
        (fun x hx => hw x (by simp [hx])) hcs2
      exact ⟨after, by rw [hafter, append_assoc]⟩
  refine ⟨textOf ps1 ++ u, after, ?_, ?_, ?_, ?_⟩
  · rw [reads.text_eq, ← hafter]
    simp [textOf, Piece.text]
  · rw [byteLength_append, byteLength_append, h1.byteLength_eq]
  · rw [Scanning.after_append]
    cases u with
    | nil =>
      rcases admits with hcode | ⟨hslash, -⟩ | ⟨-, hnewline⟩
      · exact .inl hcode
      · exact .inr hslash
      · cases hnewline
    | cons x u => exact (admits.crosses form).shown rfl (by simp) (by simp) shown
  · cases u with
    | nil =>
      rw [append_nil] at edge ⊢
      exact Laid.edge reads h1 edge
    | cons x u =>
      rw [getLast?_append_of_ne_nil (cons_ne_nil x u)] at edge ⊢
      exact edge

/-! ## Reading a file -/

/-- What a scan reports is the fault of its pieces, where they end. -/
theorem scanFrom_fault_eq (quiet : List String) (pending : Bool) (fault : Option LexFault) {o stop : Nat}
    (hstop : stop = o + byteLength (textOf ps)) : (scanFrom quiet o pending fault ps).fault =
      fault.map fun f => ⟨f.cause, ⟨stop, stop + byteLength f.text⟩, false⟩ := by
  induction ps generalizing o pending with
  | nil =>
    subst hstop
    cases fault <;> rfl
  | cons p ps ih =>
    have hstop : stop = o + byteLength p.text + byteLength (textOf ps) := by
      rw [hstop, Nat.add_assoc, ← byteLength_append]
      rfl
    have next := fun pending => ih pending hstop
    unfold scanFrom
    split
    · exact next _
    · split
      · exact next _
      · exact next _

theorem scanFrom_fault {quiet : List String} {o : Nat} {pending : Bool} {fault : Option LexFault}
    (h : (scanFrom quiet o pending fault ps).fault = none) : fault = none := by
  rw [scanFrom_fault_eq _ _ _ rfl] at h
  exact Option.map_eq_none_iff.mp h

theorem reads_of_scan {mode : ScanMode} {text : String} (h : (scan mode text).fault = none) :
    Reads text.toList (lex text.toList).1 := by
  rw [scan] at h
  exact reads_lex (Prod.ext rfl (scanFrom_fault h))

/-- The reserved start stands in the code of a text at this offset, and no word
runs into it. -/
def ReservedAt (text : List Char) (offset : Nat) : Prop :=
  ∃ before after, text = before ++ (reservedStart.toList ++ after) ∧ byteLength before = offset ∧
    (Scanning.after before).IsCode ∧ ∀ x ∈ before.getLast?, isIdentRest x = false

theorem toList_of_isReserved {name : String} (h : isReserved name = true) :
    ∃ more, name.toList = reservedStart.toList ++ more := by
  obtain ⟨more, hmore⟩ := isPrefixOf_iff_prefix.mp h
  exact ⟨more, hmore.symm⟩

/-- **Reserved names stand in the code.** Where a file that is read spells a reserved name, the
reserved start stands in the code of the text. -/
theorem parseFile_reserved {text : String} {f : File} {n n' : NodeId}
    (h : parseFile text n = .ok (f, n')) {w : Name} (hw : w ∈ f.spelled)
    (reserved : isReserved w.1 = true) :
    ∃ offset, (∀ o ∈ w.2, o = offset) ∧ ReservedAt text.toList offset := by
  unfold parseFile at h
  cases hlayout : layout text with
  | error fault =>
    rw [hlayout] at h
    cases h
  | ok laidOut =>
    rw [hlayout] at h
    simp only [layout] at hlayout
    split at hlayout
    · cases hlayout
    · rename_i hfault
      have reads := reads_of_scan hfault
      have laid := laid_layoutFrom reads.formed.text_ne_nil false
      generalize layoutFrom false (lex text.toList).1 = cs at hlayout laid
      obtain rfl : String.ofList cs = laidOut := Except.ok.inj hlayout
      have bears : Build.Ensures (Tree.Bears (OutsideIn (String.ofList cs).toList))
          (matchTree .file (String.ofList cs)) :=
        matchTree_bears (by simpa using laid.tidy reads.formed) (by simpa using laid.closed reads.formed)
      have known := matchFile_known (fun x o ⟨offset, _, hstands⟩ => ⟨offset, nofun, hstands⟩) bears
      obtain ⟨offset, hoffset, pre, rest, hsplit, rfl, out, edge⟩ := known h w hw
      refine ⟨_, hoffset, ?_⟩
      obtain ⟨more, hmore⟩ := toList_of_isReserved reserved
      have hcs : cs = pre ++ '_' :: (['g', 'o', '2'] ++ (more ++ rest)) := by
        rw [String.toList_ofList, hmore] at hsplit
        rw [hsplit, append_assoc, append_assoc]
        rfl
      obtain ⟨before, after, htext, hbytes, hcode, hedge⟩ := laid.inCode reads hcs
        (fun x hx => by simpa using any_eq_false.mp (by decide) x hx) out edge
      exact ⟨before, after, htext, hbytes, hcode, hedge⟩

end CheckHandle
