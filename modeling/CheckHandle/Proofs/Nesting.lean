import CheckHandle.Proofs.Fitting

/-!
# How deep rules nest

Where a match of a rule has not used up a character, it tries only rules of a
lower rank. So rules do not nest as deep as their bound, and with every greater
bound a match comes out the same: a text that is refused is refused by the
grammar.
-/

namespace CheckHandle

open List

/-- The rules that may be tried where a match of the pattern starts. -/
def Pattern.lefts : Pattern → List Rule
  | .rule r => [r]
  | .seq p q => if p.consumes then p.lefts else p.lefts ++ q.lefts
  | .alt p q => p.lefts ++ q.lefts
  | .opt p | .star p | .not p => p.lefts
  | _ => []

namespace Rule

/-- How many rules are tried inside one another where a match starts, up to `n`. -/
def leftDepth : Nat → Rule → Nat
  | 0, _ => 0
  | n + 1, r => (r.body.lefts.map (leftDepth n)).foldr max 0 + 1

def rank (r : Rule) : Nat := r.leftDepth 16

theorem rank_lt {r r' : Rule} (h : r' ∈ r.body.lefts) : r'.rank < r.rank := by
  have ranked : r.body.lefts.all (fun r' => r'.rank < r.rank) = true := by cases r <;> decide +kernel
  simpa using all_eq_true.mp ranked r' h

theorem leftDepth_le (n : Nat) (r : Rule) : r.leftDepth n ≤ n := by
  induction n generalizing r with
  | zero => exact .refl
  | succ n ih =>
    refine Nat.succ_le_succ ?_
    induction r.body.lefts with
    | nil => exact Nat.zero_le n
    | cons r' rs more => exact Nat.max_le.mpr ⟨ih r', more⟩

theorem rank_le (r : Rule) : r.rank ≤ 16 := leftDepth_le 16 r

end Rule

variable {size n : Nat} {call call' : RuleMatcher} {t : Bool} {c c' : Cursor} {f f' : Furthest} {text : List Char}

/-- A place of a match from which rules may nest less than `n` deep once a
character is used up. -/
structure Spot (size n : Nat) (c : Cursor) (f : Furthest) : Prop where
  stands : c.Stands size
  furthest : f.offset ≤ size
  room : c.rest.length * 128 ≤ n

theorem Cursor.Moves.length (h : c.Moves c' text) : c.rest.length = text.length + c'.rest.length := by
  rw [h.rest, length_append]

theorem Spot.next (h : Spot size n c f) (moves : c.Moves c' text) (hf : f'.offset ≤ size) : Spot size n c' f' := by
  have := moves.length
  have := h.room
  exact ⟨moves.stands h.stands, hf, by omega⟩

theorem repeatMatch_congr {step step' : Cursor → Furthest → Outcome} {gaps used : Bool}
    (fits : ∀ c f, c.Stands size → f.offset ≤ size → (step c f).Fits size used c)
    (same : ∀ {c' f' text}, c.Moves c' text → f'.offset ≤ size → step c' f' = step' c' f')
    (stands : c.Stands size) (hf : f.offset ≤ size) (bound : List Char) :
    repeatMatch step gaps bound c f = repeatMatch step' gaps bound c f := by
  induction bound generalizing c f with
  | nil =>
    obtain ⟨gap, moves⟩ := moves_gaps gaps c
    rw [repeatMatch, repeatMatch, same moves hf]
  | cons _ bound ih =>
    obtain ⟨gap, moves⟩ := moves_gaps gaps c
    have one := fits _ f (moves.stands stands) hf
    rw [repeatMatch, repeatMatch, ← same moves hf]
    split
    · rfl
    · rename_i c1 ts f1 first
      rw [first] at one
      obtain ⟨⟨text, moves1, -⟩, -, hf1⟩ := one
      have moves := moves.trans moves1
      rw [ih (fun later => same (moves.trans later)) (moves.stands stands) hf1]

/-- Two ways to match rules agree on a pattern if they agree on the rules that are
tried, at the place of the match and further on. -/
theorem Pattern.run_congr (fits : call.Fits size)
    (same : ∀ {t r c f}, Spot size n c f → c.rest.length * 128 + r.rank < n → call t r c f = call' t r c f)
    (p : Pattern) (h : Spot size n c f) (low : ∀ r ∈ p.lefts, c.rest.length * 128 + r.rank < n) :
    p.run call t c f = p.run call' t c f := by
  induction p generalizing c f with
  | empty | lit | one | any | start | finish => rfl
  | rule r => exact same h (low r mem_cons_self)
  | seq p q ihp ihq =>
    have left : ∀ r ∈ p.lefts, r ∈ (seq p q).lefts := by
      intro r hr
      rw [lefts]
      split
      · exact hr
      · exact mem_append_left _ hr
    have first := p.run_fits fits t h.stands h.furthest
    rw [run, run, ← ihp h fun r hr => low r (left r hr)]
    split
    · rfl
    · rename_i c1 ts f1 one
      rw [one] at first
      obtain ⟨⟨text, moves, used⟩, -, hf1⟩ := first
      obtain ⟨gap, gaps⟩ := moves_gaps (!t) c1
      have skipped : (if t then c1 else c1.skipGaps) = if !t then c1.skipGaps else c1 := by cases t <;> rfl
      have later := moves.trans gaps
      rw [skipped, ihq (h.next later hf1) fun r hr => ?_]
      have := later.length
      cases some : p.consumes with
      | true =>
        have := length_pos_iff.mpr (append_ne_nil_of_left_ne_nil (used some) gap)
        have := r.rank_le
        have := h.room
        omega
      | false =>
        have := low r (by simp [lefts, some, hr])
        omega
  | alt p q ihp ihq =>
    have first := p.run_fits fits t h.stands h.furthest
    rw [run, run, ← ihp h fun r hr => low r (mem_append_left _ hr)]
    split
    · rename_i f1 one
      rw [one] at first
      exact ihq ⟨h.stands, first, h.room⟩ fun r hr => low r (mem_append_right _ hr)
    · rfl
  | opt p ih | not p ih => rw [run, run, ← ih h low]
  | star p ih =>
    have later {c' : Cursor} {f' : Furthest} {text : List Char} (moves : c.Moves c' text) (hf : f'.offset ≤ size) :
        p.run call t c' f' = p.run call' t c' f' := by
      refine ih (h.next moves hf) fun r hr => ?_
      have := moves.length
      have := low r hr
      omega
    have first := p.run_fits fits t h.stands h.furthest
    rw [run, run, ← later (.refl c) h.furthest]
    split
    · rfl
    · rename_i c1 ts f1 one
      rw [one] at first
      obtain ⟨⟨text, moves, -⟩, -, hf1⟩ := first
      rw [repeatMatch_congr (fun _ _ => p.run_fits fits t) (fun more => later (moves.trans more))
        (moves.stands h.stands) hf1]

/-- Any two bounds that are great enough at a place give the same match there. -/
theorem matchRule_congr {depth depth' : Nat} {r : Rule} (stands : c.Stands size) (hf : f.offset ≤ size)
    (h : c.rest.length * 128 + r.rank < depth) (h' : c.rest.length * 128 + r.rank < depth') :
    matchRule depth t r c f = matchRule depth' t r c f := by
  induction depth generalizing depth' t r c f with
  | zero => exact absurd h (Nat.not_lt_zero _)
  | succ depth ih =>
    obtain _ | depth' := depth'
    · exact absurd h' (Nat.not_lt_zero _)
    have body : r.body.run (matchRule depth) (t || r.isToken) c f =
        r.body.run (matchRule depth') (t || r.isToken) c f :=
      Pattern.run_congr (n := c.rest.length * 128 + r.rank) (matchRule_fits depth)
        (fun spot less => ih spot.stands spot.furthest (by omega) (by omega)) r.body
        ⟨stands, hf, Nat.le_add_right ..⟩ fun r' hr => Nat.add_lt_add_left (Rule.rank_lt hr) _
    rw [matchRule, matchRule, body]

/-- The rule does not match the text, however deep rules may nest. -/
def Rule.Refuses (r : Rule) (text : String) : Prop :=
  ∀ depth ≥ nestingBound text.toList, ∃ f, matchRule depth false r ⟨0, text.toList⟩ {} = .failed f

/-- **The bound on nesting is never met.** A text that is refused is refused with
every greater bound. -/
theorem matchInput_refuses {r : Rule} {text : String} {fault : Fault} (h : matchInput r text = .error fault) :
    r.Refuses text := by
  intro depth le
  have := r.rank_le
  have enough : text.toList.length * 128 + r.rank < nestingBound text.toList := by
    rw [nestingBound]
    omega
  rw [← matchRule_congr (c := ⟨0, text.toList⟩) (Nat.zero_add _) (Nat.zero_le _) enough (Nat.lt_of_lt_of_le enough le)]
  unfold matchInput at h
  dsimp only at h
  split at h
  · cases h
  · rename_i f failed
    exact ⟨f, failed⟩

end CheckHandle
