import CheckHandle.Proofs.Quoting

/-!
# Where matches lie

A match moves a cursor over the input and never past its end, and all but a few
rules use up a character. So every tree lies in the input, with its children one
after the other inside it, and so does the furthest offset at which a rule failed.
-/

namespace CheckHandle

open Text List

variable {lo hi : Nat} {s : Span} {f : Furthest}

/-- Start and end of a stretch are in order, between two offsets. -/
structure Span.Between (lo hi : Nat) (s : Span) : Prop where
  lower : lo ≤ s.start
  ordered : s.start ≤ s.stop
  upper : s.stop ≤ hi

theorem Span.Between.mono {lo' hi' : Nat} (h : s.Between lo hi) (hlo : lo' ≤ lo) (hhi : hi ≤ hi') : s.Between lo' hi' :=
  ⟨hlo.trans h.lower, h.ordered, h.upper.trans hhi⟩

/-- From the start of one stretch to the end of a later one. -/
theorem Span.Between.join {mid : Nat} {s' : Span} (h : s.Between lo mid)
    (h' : s'.Between mid hi) : Span.Between lo hi ⟨s.start, s'.stop⟩ where
  lower := h.lower
  ordered := h.ordered.trans (h.upper.trans (h'.lower.trans h'.ordered))
  upper := h'.upper

mutual

/-- A tree lies between two offsets, and its children lie in it, one after the
other. -/
def Tree.Fits (lo hi : Nat) : Tree → Prop
  | .node _ start text children =>
    lo ≤ start ∧ start + byteLength text ≤ hi ∧ TreesFit start (start + byteLength text) children

def TreesFit (lo hi : Nat) : List Tree → Prop
  | [] => lo ≤ hi
  | t :: ts => ∃ mid, t.Fits lo mid ∧ TreesFit mid hi ts

end

section Fit

variable {lo' mid hi' start : Nat} {rule : Rule} {text : List Char} {t : Tree}
  {ts us children : List Tree}

theorem Tree.Fits.lower (h : (Tree.node rule start text children).Fits lo hi) : lo ≤ start := by
  rw [Tree.Fits] at h
  exact h.1

theorem Tree.Fits.upper (h : (Tree.node rule start text children).Fits lo hi) : start + byteLength text ≤ hi := by
  rw [Tree.Fits] at h
  exact h.2.1

theorem Tree.Fits.inside (h : (Tree.node rule start text children).Fits lo hi) :
    TreesFit start (start + byteLength text) children := by
  rw [Tree.Fits] at h
  exact h.2.2

theorem TreesFit.head (h : TreesFit lo hi (t :: ts)) : ∃ mid, t.Fits lo mid ∧ TreesFit mid hi ts := by
  rw [TreesFit] at h
  exact h

theorem TreesFit.nil (h : lo ≤ hi) : TreesFit lo hi [] := by
  rw [TreesFit]
  exact h

theorem Tree.Fits.le (h : t.Fits lo hi) : lo ≤ hi := by
  obtain ⟨rule, start, text, children⟩ := t
  have := h.lower
  have := h.upper
  omega

theorem TreesFit.le (h : TreesFit lo hi ts) : lo ≤ hi := by
  induction ts generalizing lo with
  | nil =>
    rw [TreesFit] at h
    exact h
  | cons t ts ih =>
    obtain ⟨mid, ht, hts⟩ := h.head
    exact ht.le.trans (ih hts)

theorem Tree.Fits.mono (h : t.Fits lo hi) (hlo : lo' ≤ lo) (hhi : hi ≤ hi') : t.Fits lo' hi' := by
  obtain ⟨rule, start, text, children⟩ := t
  rw [Tree.Fits]
  exact ⟨hlo.trans h.lower, h.upper.trans hhi, h.inside⟩

theorem TreesFit.mono (h : TreesFit lo hi ts) (hlo : lo' ≤ lo) (hhi : hi ≤ hi') : TreesFit lo' hi' ts := by
  induction ts generalizing lo lo' with
  | nil => exact .nil (hlo.trans (h.le.trans hhi))
  | cons t ts ih =>
    obtain ⟨mid, ht, hts⟩ := h.head
    rw [TreesFit]
    exact ⟨mid, ht.mono hlo .refl, ih hts .refl⟩

theorem TreesFit.append (h : TreesFit lo mid ts) (h' : TreesFit mid hi us) : TreesFit lo hi (ts ++ us) := by
  induction ts generalizing lo with
  | nil => exact h'.mono h.le .refl
  | cons t ts ih =>
    obtain ⟨mid', ht, hts⟩ := h.head
    rw [List.cons_append, TreesFit]
    exact ⟨mid', ht, ih hts⟩

theorem byteLength_trimEnd_le (cs : List Char) : byteLength (trimEnd cs) ≤ byteLength cs := by
  have drop : ∀ cs : List Char, byteLength (cs.dropWhile isBlank) ≤ byteLength cs := by
    intro cs
    have := congrArg byteLength (List.takeWhile_append_dropWhile (p := isBlank) (l := cs))
    rw [byteLength_append] at this
    omega
  have back : ∀ cs : List Char, byteLength cs.reverse = byteLength cs := by
    intro cs
    induction cs with
    | nil => rfl
    | cons c cs ih =>
      rw [List.reverse_cons, byteLength_append, ih, byteLength_cons, byteLength_cons, byteLength_nil,
        Nat.add_zero, Nat.add_comm]
  rw [trimEnd, back, ← back cs]
  exact drop cs.reverse

/-- The span of a tree lies where the tree lies. -/
theorem Tree.Fits.span (h : t.Fits lo hi) : t.span.Between lo hi := by
  obtain ⟨rule, start, text, children⟩ := t
  have := byteLength_trimEnd_le text
  exact ⟨h.lower, Nat.le_add_right .., Nat.le_trans (Nat.add_le_add_left this start) h.upper⟩

end Fit

/-! ## Matching -/

/-- A match of the rule is not empty. -/
def Rule.consumes : Rule → Bool
  | .file | .endOfInput | .caseBody => false
  | _ => true

/-- A match of the pattern is not empty. -/
def Pattern.consumes : Pattern → Bool
  | .lit text => !text.isEmpty
  | .one _ | .any => true
  | .rule r => r.consumes
  | .seq p q => p.consumes || q.consumes
  | .alt p q => p.consumes && q.consumes
  | _ => false

theorem Rule.body_consumes {r : Rule} (h : r.consumes = true) : r.body.consumes = true := by
  cases r <;> first | rfl | cases h

/-- The cursor stands in an input of this size. -/
def Cursor.Stands (size : Nat) (c : Cursor) : Prop := c.offset + byteLength c.rest = size

section Match

variable {size : Nat} {c c' : Cursor} {text : List Char} {used : Bool}

theorem Cursor.Stands.le (h : c.Stands size) : c.offset ≤ size := by
  unfold Stands at h
  omega

theorem Cursor.Moves.stands (h : c.Moves c' text) (stands : c.Stands size) : c'.Stands size := by
  unfold Stands at *
  rw [h.rest, byteLength_append] at stands
  rw [h.offset]
  omega

theorem Cursor.Moves.le (h : c.Moves c' text) : c.offset ≤ c'.offset := by
  rw [h.offset]
  omega

/-- What a part of a match leaves, from a cursor on, which it moves if `used`. -/
def Outcome.Fits (size : Nat) (used : Bool) (c : Cursor) : Outcome → Prop
  | .matched c' trees f => (∃ text, c.Moves c' text ∧ (used = true → text ≠ [])) ∧
    TreesFit c.offset c'.offset trees ∧ f.offset ≤ size
  | .failed f => f.offset ≤ size

/-- Rules are matched inside the input. -/
def RuleMatcher.Fits (size : Nat) (call : RuleMatcher) : Prop :=
  ∀ inToken r c f, c.Stands size → f.offset ≤ size → (call inToken r c f).Fits size r.consumes c

theorem Outcome.fits_self (hf : f.offset ≤ size) : (Outcome.matched c [] f).Fits size false c :=
  ⟨⟨[], .refl c, fun h => absurd h Bool.false_ne_true⟩, .nil .refl, hf⟩

theorem Outcome.Fits.weaken {o : Outcome} {used' : Bool} (h : o.Fits size used c) (imp : used' = true → used = true) :
    o.Fits size used' c := by
  cases o with
  | failed f => exact h
  | matched c' trees f =>
    obtain ⟨⟨text, moves, new⟩, fit⟩ := h
    exact ⟨⟨text, moves, new ∘ imp⟩, fit⟩

theorem Outcome.Fits.of_moves {o : Outcome} (h : o.Fits size used c') (moves : c.Moves c' text) :
    o.Fits size used c := by
  cases o with
  | failed f => exact h
  | matched c'' trees f =>
    obtain ⟨⟨text', moves', new⟩, fit, hf⟩ := h
    exact ⟨⟨_, moves.trans moves', fun h => append_ne_nil_of_right_ne_nil _ (new h)⟩, fit.mono moves.le .refl, hf⟩

theorem Outcome.Fits.andThen {c'' : Cursor} {trees more : List Tree} {f' : Furthest} {used' : Bool}
    (h : (Outcome.matched c' trees f).Fits size used c) (h' : (Outcome.matched c'' more f').Fits size used' c') :
    (Outcome.matched c'' (trees ++ more) f').Fits size (used || used') c := by
  obtain ⟨⟨text, moves, new⟩, fit, -⟩ := h
  obtain ⟨⟨text', moves', new'⟩, fit', hf⟩ := h'
  refine ⟨⟨_, moves.trans moves', fun h => ?_⟩, fit.append fit', hf⟩
  rcases (Bool.or_eq_true _ _).mp h with h | h
  · exact append_ne_nil_of_left_ne_nil (new h) _
  · exact append_ne_nil_of_right_ne_nil _ (new' h)

theorem moves_gaps (gaps : Bool) (c : Cursor) : ∃ gap, c.Moves (if gaps then c.skipGaps else c) gap := by
  split
  · exact ⟨_, skipGaps_moves c⟩
  · exact ⟨_, .refl c⟩

theorem Rounds.fits {step : Cursor → Furthest → Outcome} {gaps skip : Bool} {ts : List Tree} {f' : Furthest}
    (hstep : ∀ c f, c.Stands size → f.offset ≤ size → (step c f).Fits size used c)
    (stands : c.Stands size) (hf : f.offset ≤ size) (rounds : Rounds step gaps skip c f c' ts f') :
    (Outcome.matched c' ts f').Fits size false c := by
  have first : ∀ {skip : Bool} {c : Cursor} {f : Furthest}, c.Stands size → f.offset ≤ size →
      (step (if skip then c.skipGaps else c) f).Fits size false c := by
    intro skip c f stands hf
    obtain ⟨gap, moves⟩ := moves_gaps skip c
    exact ((hstep _ f (moves.stands stands) hf).of_moves moves).weaken fun h => absurd h Bool.false_ne_true
  induction rounds with
  | done none => exact Outcome.fits_self (none ▸ first stands hf :)
  | last one => exact one ▸ first stands hf
  | more one _ ih =>
    have fits := one ▸ first stands hf
    obtain ⟨⟨text, moves, -⟩, _, hf1⟩ := id fits
    exact fits.andThen (ih (moves.stands stands) hf1)

theorem Pattern.run_fits {call : RuleMatcher} (hcall : call.Fits size) (inToken : Bool) (p : Pattern)
    (stands : c.Stands size) (hf : f.offset ≤ size) :
    (p.run call inToken c f).Fits size p.consumes c := by
  -- A single character moves the cursor and leaves no tree.
  have one : ∀ {c : Cursor} {x : Char} {rest : List Char} {f : Furthest}, c.rest = x :: rest →
      f.offset ≤ size → (Outcome.matched ⟨c.offset + x.utf8Size, rest⟩ [] f).Fits size true c := by
    intro c x rest f hrest hf
    exact ⟨⟨[x], ⟨hrest, rfl⟩, fun _ => cons_ne_nil _ _⟩, .nil (Nat.le_add_right ..), hf⟩
  induction p generalizing c f with
  | empty => exact Outcome.fits_self hf
  | lit text =>
    rw [Pattern.run]
    split
    · rename_i c1 hstrip
      have moves := Cursor.moves_of_strip hstrip
      exact ⟨⟨_, moves, by simp [consumes]⟩, .nil moves.le, hf⟩
    · exact hf
  | one charClass =>
    rw [Pattern.run]
    split
    · rename_i hrest
      split
      · exact one hrest hf
      · exact hf
    · exact hf
  | any =>
    rw [Pattern.run]
    split
    · rename_i hrest
      exact one hrest hf
    · exact hf
  | start | finish =>
    rw [Pattern.run]
    split
    · exact Outcome.fits_self hf
    · exact hf
  | rule r => exact hcall inToken r c f stands hf
  | seq p q ihp ihq =>
    have first := ihp stands hf
    rw [Pattern.run]
    split
    · rename_i hp
      rw [hp] at first
      exact first
    · rename_i c1 trees1 f1 hp
      rw [hp] at first
      obtain ⟨⟨text, moves1, -⟩, _, hf1⟩ := id first
      have gaps : ∃ gap, c1.Moves (if inToken then c1 else c1.skipGaps) gap := by
        split
        · exact ⟨_, .refl c1⟩
        · exact ⟨_, skipGaps_moves c1⟩
      obtain ⟨gap, moves2⟩ := gaps
      have second := (ihq (moves2.stands (moves1.stands stands)) hf1).of_moves moves2
      split
      · rename_i hq
        rw [hq] at second
        exact second
      · rename_i hq
        rw [hq] at second
        exact first.andThen second
  | alt p q ihp ihq =>
    have first := ihp stands hf
    rw [Pattern.run]
    split
    · rename_i hp
      rw [hp] at first
      exact (ihq stands first).weaken fun both => ((Bool.and_eq_true _ _).mp both).2
    · rename_i hp
      rw [hp] at first
      exact first.weaken fun both => ((Bool.and_eq_true _ _).mp both).1
  | opt p ih =>
    have first := ih stands hf
    rw [Pattern.run]
    split
    · rename_i hp
      rw [hp] at first
      exact Outcome.fits_self first
    · rename_i hp
      rw [hp] at first
      exact first.weaken fun h => absurd h Bool.false_ne_true
  | star p ih =>
    obtain ⟨_, _, _, matched, rounds⟩ := p.star_rounds call inToken c f
    rw [matched]
    exact rounds.fits (fun c f hc hf => ih hc hf) stands hf
  | not p ih =>
    rw [Pattern.run]
    split
    · exact Outcome.fits_self hf
    · exact hf

theorem Furthest.record_le {rule : Rule} {offset before : Nat} (hf : f.offset ≤ size)
    (hoffset : offset ≤ size) : (f.record rule offset before).offset ≤ size := by
  unfold Furthest.record
  split
  · exact hf
  · split
    · exact hoffset
    · split
      · exact hoffset
      · exact hf

theorem matchRule_fits (depth : Nat) : (matchRule depth).Fits size := by
  induction depth with
  | zero =>
    intro inToken r c f stands hf
    exact hf
  | succ depth ih =>
    intro inToken r c f stands hf
    have body := (r.body.run_fits ih (inToken || r.isToken) stands hf).weaken Rule.body_consumes
    rw [matchRule]
    split
    · rename_i f' hbody
      rw [hbody] at body
      change (if inToken then f else f'.record r c.offset _).offset ≤ size
      split
      · exact hf
      · exact Furthest.record_le body stands.le
    · rename_i c' trees f' hbody
      rw [hbody] at body
      obtain ⟨⟨text, moves, new⟩, fit, hf'⟩ := body
      split
      · exact ⟨⟨text, moves, new⟩, .nil moves.le, hf⟩
      · split
        · exact ⟨⟨text, moves, new⟩, .nil moves.le, hf'⟩
        · have htext : takeBytes (c'.offset - c.offset) c.rest = text := by
            rw [moves.offset, Nat.add_sub_cancel_left, moves.rest, takeBytes_byteLength]
          refine ⟨⟨text, moves, new⟩, ?_, hf'⟩
          rw [htext, TreesFit]
          refine ⟨c'.offset, ?_, .nil .refl⟩
          rw [Tree.Fits, ← moves.offset]
          refine ⟨.refl, .refl, ?_⟩
          split
          · exact .nil moves.le
          · exact fit

end Match

end CheckHandle
