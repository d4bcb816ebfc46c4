import CheckHandle.Proofs.Placing

/-!
# Closures inside a checked expression

The body of a function literal may stand in a function, or in a function literal
that is an argument of a checked call. Outside of checks the lowering knows
handlers and the headers of statements; inside it only counts delimiters. Main
statement: the same edits are made in both places, if the body closes what it
opens and neither has a handler nor a check that ends at the block of its
statement.
-/

namespace CheckHandle

open List

variable {ts : List Token} {final s : Lowering} {n : Nat}

/-! ## Counting delimiters -/

namespace Depth

theorem isNegative_eq_false {d : Depth} : d.isNegative = false ↔ 0 ≤ d.parens ∧ 0 ≤ d.brackets ∧ 0 ≤ d.braces := by
  simp only [isNegative, Bool.or_eq_false_iff, decide_eq_false_iff_not, Int.not_lt, and_assoc]

def plus (a b : Depth) : Depth := ⟨a.parens + b.parens, a.brackets + b.brackets, a.braces + b.braces⟩

/-- A token adds the same to every depth. -/
theorem after_eq (d : Depth) (t : Token) : d.after t = d.plus (after {} t) := by
  unfold after
  repeat' split
  all_goals simp [plus, Int.sub_eq_add_neg]

theorem after_plus (a b : Depth) (t : Token) : (a.plus b).after t = a.plus (b.after t) := by
  rw [after_eq, after_eq b]
  simp only [plus, Int.add_assoc]

end Depth

/-- The tokens close what they open, and nothing else, from a depth on. -/
def Balanced (d : Depth) : List Token → Prop
  | [] => d = {}
  | t :: ts => (d.after t).isNegative = false ∧ Balanced (d.after t) ts

instance Balanced.decidable : (d : Depth) → (ts : List Token) → Decidable (Balanced d ts)
  | d, [] => inferInstanceAs (Decidable (d = {}))
  | d, t :: ts =>
    have := Balanced.decidable (d.after t) ts
    inferInstanceAs (Decidable (_ ∧ _))

/-- The depth in all checks together. -/
def totalDepth (d : Depth) : List OpenCheck → Depth
  | [] => d
  | c :: cs => (totalDepth d cs).plus c.depth

/-! ## Tokens in another place -/

def Token.shift (d : Nat) (t : Token) : Token := { t with span := ⟨t.span.start + d, t.span.stop + d⟩ }

def Edit.shift (d : Nat) (e : Edit) : Edit := { e with start := e.start + d, stop := e.stop + d }

/-- An edit with its marker, in another place. -/
def shiftMarked (d : Nat) (e : Edit × Option Marker) : Edit × Option Marker := (e.1.shift d, e.2)

/-- The tokens of a source without its end. -/
def tokensOf (source : String) : List Token := (scan .marked source).tokens.dropLast

def operatorAt (text : Char) (offset : Nat) : Token := ⟨.operator, String.singleton text, ⟨offset, offset + 1⟩⟩

/-- The end of a text after its last token. -/
def endAt (offset : Nat) : List Token := [autoSemicolon offset, ⟨.endOfText, "", ⟨offset, offset⟩⟩]

/-- The tokens of a function whose body has the tokens `ts` up to offset `n`. -/
def functionTokens (ts : List Token) (n : Nat) : List Token :=
  tokensOf "func g() \x7b" ++ (ts ++ (operatorAt '}' (n + 1) :: endAt (n + 2)))

/-- The tokens of a function that checks a call with a function literal whose
body has these tokens. -/
def closureTokens (ts : List Token) (n : Nat) : List Token := tokensOf "func g() \x7b check h(func() \x7b" ++ (ts ++
    (operatorAt '}' (n + 1) :: operatorAt ')' (n + 2) :: operatorAt '}' (n + 4) :: endAt (n + 5)))

/-- The check as it is known inside another one. -/
def OpenCheck.plain (c : OpenCheck) : OpenCheck := { c with inHeader := false }

namespace Lowering

/-- The token starts a handler, or ends a check at the block of its statement. -/
def contextual (s : Lowering) (t : Token) : Bool := (s.checks.isEmpty && s.isMarker t .handle) ||
    (t.isOperator Token.openBrace && s.checks.head?.any (OpenCheck.endsAt t))

/-- On the way through the tokens, there is such a token. -/
def ReadsContext (s : Lowering) : List Token → Prop
  | [] => False
  | t :: ts => s.contextual t = true ∨ ∃ s', s.step t ts.head? = .ok s' ∧ s'.ReadsContext ts

instance ReadsContext.decidable : (s : Lowering) → (ts : List Token) → Decidable (s.ReadsContext ts)
  | _, [] => isFalse id
  | s, t :: ts =>
    match h : s.step t ts.head? with
    | .ok s' =>
      have := ReadsContext.decidable s' ts
      decidable_of_iff (s.contextual t = true ∨ s'.ReadsContext ts) (by simp [ReadsContext, h])
    | .error _ => decidable_of_iff (s.contextual t = true) (by simp [ReadsContext, h])

/-- A state outside of checks, and one in the block of a function literal that
is an argument of a checked call: all offsets are moved by `d`, and the edits
`base` come before. The text so far has the depth `r`. -/
structure Within (d : Nat) (base : List (Edit × Option Marker)) (r : Depth) (s s' : Lowering) : Prop where
  idle : s.handler = .idle
  idle' : s'.handler = .idle
  dot : s'.afterDot = s.afterDot
  last : s'.lastStop = s.lastStop + d
  edits : s'.edits = s.edits.map (shiftMarked d) ++ base
  checks : s'.checks = s.checks.map OpenCheck.plain ++ [⟨s.depth.plus ⟨1, 0, 0⟩, false⟩]
  block : 0 ≤ s.depth.parens ∧ 0 ≤ s.depth.brackets ∧ 1 ≤ s.depth.braces
  inner : ∀ c ∈ s.checks, c.depth.isNegative = false
  total : totalDepth s.depth s.checks = r.plus ⟨0, 0, 1⟩

section Step

variable {d : Nat} {base : List (Edit × Option Marker)} {r : Depth} {s' s1 : Lowering} {t : Token}
  {next : Option Token}

theorem isZero_iff {d : Depth} : d.isZero = true ↔ d = {} := by
  rw [Depth.isZero, beq_iff_eq]

/-- What is closed has no depth. -/
theorem totalDepth_dropWhile (e : Depth) (cs : List OpenCheck) :
    totalDepth e (cs.dropWhile (OpenCheck.endsAt t)) = totalDepth e cs := by
  induction cs with
  | nil => rfl
  | cons c cs ih =>
    cases ends : OpenCheck.endsAt t c with
    | false => rw [dropWhile_cons_of_neg (by simp [ends])]
    | true =>
      have zero : c.depth = {} := by
        simp only [OpenCheck.endsAt, Bool.and_eq_true] at ends
        exact isZero_iff.mp ends.1
      rw [dropWhile_cons_of_pos ends, ih, totalDepth, zero]
      simp [Depth.plus]

theorem split_closed {p p' : OpenCheck → Bool} (same : ∀ c, p' c.plain = p c) {last : OpenCheck}
    (stays : p' last = false) (cs : List OpenCheck) :
    (cs.map OpenCheck.plain ++ [last]).takeWhile p' = (cs.takeWhile p).map OpenCheck.plain ∧
      (cs.map OpenCheck.plain ++ [last]).dropWhile p' = (cs.dropWhile p).map OpenCheck.plain ++ [last] := by
  induction cs with
  | nil => simp [stays]
  | cons c cs ih =>
    cases ends : p c with
    | true => simp [same c, ends, ih.1, ih.2]
    | false => simp [same c, ends]

/-- Both close the same checks. -/
theorem Within.close (h : Within d base r s s') (free : s.contextual t = false) :
    Within d base r (s.close t) (s'.close (t.shift d)) := by
  have outer : ∀ u, OpenCheck.endsAt u ⟨s.depth.plus ⟨1, 0, 0⟩, false⟩ = false := by
    intro u
    have positive : (s.depth.plus ⟨1, 0, 0⟩).isZero = false := by
      refine Bool.eq_false_iff.mpr fun zero => ?_
      have : s.depth.parens + 1 = 0 := congrArg Depth.parens (isZero_iff.mp zero)
      have := h.block.1
      omega
    simp [OpenCheck.endsAt, positive]
  have closed : ∃ k, (s.checks.takeWhile (OpenCheck.endsAt t)).length = k ∧
      (s'.checks.takeWhile (OpenCheck.endsAt t)).length = k ∧
      s'.checks.dropWhile (OpenCheck.endsAt t) =
        (s.checks.dropWhile (OpenCheck.endsAt t)).map OpenCheck.plain ++ [⟨s.depth.plus ⟨1, 0, 0⟩, false⟩] := by
    rw [h.checks]
    cases brace : t.isOperator Token.openBrace with
    | false =>
      have same : ∀ c : OpenCheck, OpenCheck.endsAt t c.plain = OpenCheck.endsAt t c := by
        intro c
        simp [OpenCheck.endsAt, OpenCheck.plain, brace]
      obtain ⟨taken, left⟩ := split_closed same (outer t) s.checks
      rw [taken, left]
      exact ⟨_, rfl, length_map .., rfl⟩
    | true =>
      -- A brace ends no check in either place.
      have ends : t.endsExpr = false := by
        simp only [Token.isOperator, Bool.and_eq_true, beq_iff_eq] at brace
        simp only [Token.endsExpr, brace.1, brace.2]
        decide
      have none : s.checks.takeWhile (OpenCheck.endsAt t) = [] ∧
          s.checks.dropWhile (OpenCheck.endsAt t) = s.checks := by
        cases hchecks : s.checks with
        | nil => exact ⟨rfl, rfl⟩
        | cons c cs =>
          simp only [contextual, hchecks, brace, Bool.or_eq_false_iff] at free
          have stays : OpenCheck.endsAt t c = false := by simpa using free.2
          simp [stays]
      have same : ∀ c : OpenCheck, OpenCheck.endsAt t c.plain = (fun _ => false) c := by
        intro c
        simp [OpenCheck.endsAt, OpenCheck.plain, ends]
      obtain ⟨taken, left⟩ := split_closed same (outer t) s.checks
      have never : s.checks.takeWhile (fun _ => false) = [] ∧ s.checks.dropWhile (fun _ => false) = s.checks := by
        cases s.checks <;> exact ⟨rfl, rfl⟩
      rw [never.1] at taken
      rw [never.2] at left
      rw [taken, left, none.1, none.2]
      exact ⟨0, rfl, rfl, rfl⟩
  obtain ⟨k, hk, hk', left⟩ := closed
  refine ⟨h.idle, h.idle', h.dot, h.last, ?_, left, h.block, fun c hc => ?_, ?_⟩
  · show replicate (s'.checks.takeWhile (OpenCheck.endsAt t)).length _ ++ s'.edits =
      (replicate (s.checks.takeWhile (OpenCheck.endsAt t)).length _ ++ s.edits).map _ ++ base
    rw [hk, hk', h.edits, map_append, map_replicate, h.last, append_assoc]
    rfl
  · exact h.inner c ((dropWhile_sublist _).subset hc)
  · exact (totalDepth_dropWhile s.depth s.checks).trans h.total

theorem refuseReserved_shift (h : refuseReserved t = .ok ()) : refuseReserved (t.shift d) = .ok () := by
  unfold refuseReserved at h ⊢
  split at h
  · cases h
  · rename_i hfree
    exact if_neg hfree

/-- A check starts in both places. -/
theorem Within.openCheck (h : Within d base r s s') {b : Bool} (hopen : s.openCheck t next b = .ok s1) :
    ∃ s1', s'.openCheck (t.shift d) (next.map (Token.shift d)) false = .ok s1' ∧ Within d base r s1 s1' := by
  unfold Lowering.openCheck at hopen
  split at hopen
  · cases hopen
  · rename_i first
    split at hopen
    · cases hopen
    · rename_i inside
      cases hopen
      refine ⟨_, if_neg inside, h.idle, h.idle', rfl, rfl, ?_, ?_, h.block, ?_, ?_⟩
      · show _ :: s'.edits = _
        rw [h.edits]
        rfl
      · show _ :: s'.checks = _
        rw [h.checks]
        rfl
      · exact forall_mem_cons.mpr ⟨rfl, h.inner⟩
      · refine Eq.trans ?_ h.total
        show (totalDepth s.depth s.checks).plus {} = _
        simp [Depth.plus]

/-- **One token** has the same effect in both places. -/
theorem Within.step (h : Within d base r s s') (kind : t.kind ≠ .endOfText)
    (room : (r.after t).isNegative = false) (free : s.contextual t = false) (hstep : s.step t next = .ok s1) :
    ∃ s1', s'.step (t.shift d) (next.map (Token.shift d)) = .ok s1' ∧ Within d base (r.after t) s1 s1' := by
  have goesOn : ∀ cs : List OpenCheck, (!cs.isEmpty && t.kind == TokenKind.endOfText) = false := by
    simp [kind]
  have closed := h.close free
  -- A marker is a word, and no depth changes with it.
  have still : ∀ {k : MarkerKind}, (s.close t).isMarker t k = true → r.after t = r := by
    intro k marker
    simp only [isMarker, Token.isIdent, Bool.and_eq_true, beq_iff_eq] at marker
    simp [Depth.after, marker.1.1]
  have markers : ∀ k, (s'.close (t.shift d)).isMarker (t.shift d) k = (s.close t).isMarker t k := by
    intro k
    simp only [isMarker, closed.dot]
    rfl
  unfold Lowering.step at hstep ⊢
  rw [h.idle] at hstep
  rw [h.idle']
  simp only [goesOn, Bool.false_eq_true, if_false] at hstep
  simp only [show (t.shift d).kind = t.kind from rfl, goesOn, Bool.false_eq_true, if_false]
  have hchecks := closed.checks
  split at hstep
  · rename_i none
    obtain ⟨hr, hstep⟩ := refuseReserved_bind hstep
    simp only [none, map_nil, nil_append] at hchecks
    simp only [hchecks, stepCheck, refuseReserved_shift hr, markers, Bool.false_and, bind, Except.bind]
    split at hstep
    · rename_i marker
      rw [if_pos marker, still marker]
      exact closed.openCheck hstep
    · rename_i other
      rw [if_neg other]
      have total : (s.close t).depth = r.plus ⟨0, 0, 1⟩ := by
        rw [← closed.total, none, totalDepth]
      have deeper : ((s.close t).depth.plus ⟨1, 0, 0⟩).after (t.shift d) =
          (((s.close t).depth).after t).plus ⟨1, 0, 0⟩ := by
        show Depth.after _ t = _
        rw [Depth.after_eq, Depth.after_eq (s.close t).depth]
        simp only [Depth.plus]
        congr 1 <;> omega
      have room' : 0 ≤ ((s.close t).depth.after t).parens ∧ 0 ≤ ((s.close t).depth.after t).brackets ∧
          1 ≤ ((s.close t).depth.after t).braces := by
        obtain ⟨h1, h2, h3⟩ := Depth.isNegative_eq_false.mp room
        rw [Depth.after_eq] at h1 h2 h3 ⊢
        rw [total]
        simp only [Depth.plus] at *
        omega
      have fits : (((s.close t).depth.after t).plus ⟨1, 0, 0⟩).isNegative = false := by
        refine Depth.isNegative_eq_false.mpr ?_
        simp only [Depth.plus]
        omega
      have total' : (s.close t).depth.after t = (r.after t).plus ⟨0, 0, 1⟩ := by
        rw [total, Depth.after_eq, Depth.after_eq r]
        simp only [Depth.plus]
        congr 1 <;> omega
      split at hstep
      · rename_i handle
        simp only [contextual, Bool.or_eq_false_iff] at free
        have ident : t.kind = .ident := by
          simp only [isMarker, Token.isIdent, Bool.and_eq_true, beq_iff_eq] at handle
          exact handle.1.1
        rw [close_of_ident ident] at none handle
        simp [none, handle] at free
      · have kept : s1.handler = (s.close t).handler ∧ s1.afterDot = t.isOperator "." ∧
            s1.lastStop = t.span.stop ∧ s1.edits = (s.close t).edits ∧ s1.checks = [] ∧
            s1.depth = (s.close t).depth.after t := by
          split at hstep
          · rename_i keyword
            cases hstep
            refine ⟨rfl, rfl, rfl, rfl, none, ?_⟩
            simp only [Bool.and_eq_true, beq_iff_eq] at keyword
            simp [consume, Depth.after, keyword.1]
          · cases hstep
            exact ⟨rfl, rfl, rfl, rfl, none, rfl⟩
        obtain ⟨khandler, kdot, kstop, kedits, kchecks, kdepth⟩ := kept
        rw [deeper, if_neg (by simp [fits])]
        refine ⟨_, rfl, khandler.trans closed.idle, closed.idle', ?_, ?_, ?_, ?_, ?_, ?_, ?_⟩
        · exact kdot ▸ rfl
        · exact kstop ▸ rfl
        · exact kedits ▸ closed.edits
        · rw [kchecks, kdepth]
          rfl
        · exact kdepth ▸ room'
        · rw [kchecks]
          simp
        · rw [kchecks, kdepth]
          exact total'
  · rename_i c outer some
    obtain ⟨hr, hstep⟩ := refuseReserved_bind hstep
    simp only [some, map_cons, cons_append] at hchecks
    simp only [hchecks, stepCheck, refuseReserved_shift hr, markers, bind, Except.bind, OpenCheck.plain, Bool.false_and]
    split at hstep
    · rename_i marker
      rw [if_pos marker, still marker]
      exact closed.openCheck hstep
    · rename_i other
      rw [if_neg other]
      dsimp only at hstep
      split at hstep
      · cases hstep
      · rename_i positive
        cases hstep
        refine ⟨_, if_neg positive, closed.idle, closed.idle', rfl, rfl, closed.edits, rfl, closed.block, ?_, ?_⟩
        · have inner := closed.inner
          rw [some] at inner
          exact forall_mem_cons.mpr ⟨by simpa using positive, (forall_mem_cons.mp inner).2⟩
        · have total := closed.total
          rw [some] at total
          show (totalDepth (s.close t).depth outer).plus (c.depth.after t) = _
          rw [← Depth.after_plus, ← totalDepth, total, Depth.after_eq, Depth.after_eq r]
          simp only [Depth.plus]
          congr 1 <;> omega

/-- **All tokens of the body** have the same effect in both places, whatever
follows them there. -/
theorem Within.run {rest rest' : List Token} (h : Within d base r s s')
    (kinds : ∀ t ∈ ts, t.kind ≠ .endOfText) (balanced : Balanced r ts)
    (free : ¬ s.ReadsContext (ts ++ rest)) (next : rest'.head? = rest.head?.map (Token.shift d))
    (hrun : s.run (ts ++ rest) = .ok final) :
    ∃ s1 s1', s1.run rest = .ok final ∧ Within d base {} s1 s1' ∧
      s'.run (ts.map (Token.shift d) ++ rest') = s1'.run rest' ∧
      (s'.ReadsBareCheck (ts.map (Token.shift d) ++ rest') ↔ s1'.ReadsBareCheck rest') := by
  induction ts generalizing s s' r with
  | nil =>
    cases balanced
    exact ⟨s, s', hrun, h, rfl, Iff.rfl⟩
  | cons t ts ih =>
    obtain ⟨kind, kinds⟩ := forall_mem_cons.mp kinds
    rw [cons_append] at free hrun
    obtain ⟨s2, hstep, hrest⟩ := run_cons hrun
    obtain ⟨here, further⟩ := not_or.mp free
    obtain ⟨s2', hstep', h2⟩ := h.step kind balanced.1 (Bool.eq_false_iff.mpr here) hstep
    have ahead : (ts.map (Token.shift d) ++ rest').head? = (ts ++ rest).head?.map (Token.shift d) := by
      cases ts with
      | nil => exact next
      | cons u us => rfl
    obtain ⟨s1, s1', hfinal, h1, same, bare⟩ := ih h2 kinds balanced.2 (fun reads => further ⟨s2, hstep, reads⟩) hrest
    refine ⟨s1, s1', hfinal, h1, ?_, ?_⟩
    · rw [map_cons, cons_append, Lowering.run, ahead, hstep', ← same]
      rfl
    · rw [← bare, map_cons, cons_append, ReadsBareCheck, ahead, hstep']
      constructor
      · rintro (⟨brace, -, found⟩ | ⟨_, ⟨⟩, reads⟩)
        · -- No check is in a header here.
          have header := found.header
          rw [inHeader, h.checks] at header
          cases hchecks : s.checks with
          | nil | cons c cs =>
            rw [hchecks] at header
            cases header
        · exact reads
      · intro reads
        exact .inr ⟨s2', rfl, reads⟩

/-- At the end of the body, nothing is open in it. -/
theorem flat_of_total {e f : Depth} {cs : List OpenCheck} (inner : ∀ c ∈ cs, c.depth.isNegative = false)
    (total : totalDepth e cs = f) (parens : f.parens ≤ e.parens) (brackets : f.brackets ≤ e.brackets)
    (braces : f.braces ≤ e.braces) : e = f ∧ ∀ c ∈ cs, c.depth = {} := by
  induction cs generalizing f with
  | nil => exact ⟨total, by simp⟩
  | cons c cs ih =>
    obtain ⟨here, inner⟩ := forall_mem_cons.mp inner
    obtain ⟨p, b, r⟩ := Depth.isNegative_eq_false.mp here
    subst total
    simp only [totalDepth, Depth.plus] at parens brackets braces
    obtain ⟨rest, zero⟩ := ih inner rfl (by omega) (by omega) (by omega)
    rw [← rest] at parens brackets braces
    have flat : c.depth = {} := by
      cases hc : c.depth with
      | mk x y z =>
        simp only [hc] at *
        congr 1 <;> omega
    refine ⟨?_, forall_mem_cons.mpr ⟨flat, zero⟩⟩
    rw [totalDepth, ← rest, flat]
    simp [Depth.plus]

end Step

section Ends

variable {depth : Depth} {headers : List Depth} {cs : List OpenCheck} {dot : Bool} {last : Nat}
  {edits : List (Edit × Option Marker)}

/-- A closing brace closes the checks above the first it does not end. -/
theorem close_append (zero : ∀ c ∈ cs, c.depth = {}) (below : List OpenCheck)
    (kept : ∀ c ∈ below.head?, OpenCheck.endsAt (operatorAt '}' (n + 1)) c = false) :
    (⟨depth, headers, cs ++ below, .idle, dot, last, edits⟩ : Lowering).close (operatorAt '}' (n + 1)) =
      ⟨depth, headers, below, .idle, dot, last, replicate cs.length (Edit.insert last ")", none) ++ edits⟩ := by
  have all : ∀ c ∈ cs, OpenCheck.endsAt (operatorAt '}' (n + 1)) c = true := by
    intro c hc
    rw [OpenCheck.endsAt, zero c hc]
    rfl
  rw [close, takeWhile_append_of_pos all, dropWhile_append_of_pos all]
  cases below <;> simp_all

/-- The end of a function closes all checks in its body. -/
theorem run_functionEnd (zero : ∀ c ∈ cs, c.depth = {}) :
    Lowering.run ⟨depth, headers, cs, .idle, dot, last, edits⟩ (operatorAt '}' (n + 1) :: endAt (n + 2)) =
      .ok ⟨depth.after (operatorAt '}' (n + 1)), headers, [], .idle, false, n + 2,
        replicate cs.length (Edit.insert last ")", none) ++ edits⟩ := by
  have closed := @close_append n depth headers cs dot last edits zero [] nofun
  rw [append_nil] at closed
  have first : (⟨depth, headers, cs, .idle, dot, last, edits⟩ : Lowering).step (operatorAt '}' (n + 1))
      (endAt (n + 2)).head? = .ok ⟨depth.after (operatorAt '}' (n + 1)), headers, [], .idle, false, n + 2,
        replicate cs.length (Edit.insert last ")", none) ++ edits⟩ := by
    rw [step]
    dsimp only
    rw [closed, if_neg (by simp [operatorAt])]
    rfl
  rw [run, first]
  rfl

/-- The end of a closure closes the checks in its body and then the one around it. -/
theorem run_closureEnd (zero : ∀ c ∈ cs, c.depth = {}) :
    Lowering.run ⟨depth, headers, cs ++ [⟨⟨1, 0, 1⟩, false⟩], .idle, dot, last, edits⟩
      (operatorAt '}' (n + 1) :: operatorAt ')' (n + 2) :: operatorAt '}' (n + 4) :: endAt (n + 5)) =
      .ok ⟨depth.after (operatorAt '}' (n + 4)), headers, [], .idle, false, n + 5,
        (Edit.insert (n + 3) ")", none) :: (replicate cs.length (Edit.insert last ")", none) ++ edits)⟩ := by
  have closed := @close_append n depth headers cs dot last edits zero [⟨⟨1, 0, 1⟩, false⟩] (by rintro _ ⟨⟩; rfl)
  have first : (⟨depth, headers, cs ++ [⟨⟨1, 0, 1⟩, false⟩], .idle, dot, last, edits⟩ : Lowering).step
      (operatorAt '}' (n + 1)) (some (operatorAt ')' (n + 2))) = .ok ⟨depth, headers, [⟨⟨1, 0, 0⟩, false⟩], .idle,
        false, n + 2, replicate cs.length (Edit.insert last ")", none) ++ edits⟩ := by
    rw [step]
    dsimp only
    rw [closed, if_neg (by simp [operatorAt])]
    rfl
  rw [run, head?_cons, first]
  rfl

theorem readsBareCheck_step {s' : Lowering} {t : Token} (hstep : s.step t ts.head? = .ok s')
    (outside : s.inHeader = false) : s.ReadsBareCheck (t :: ts) ↔ s'.ReadsBareCheck ts := by
  constructor
  · rintro (⟨brace, -, bare⟩ | ⟨_, h, reads⟩)
    · cases bare.header.symm.trans outside
    · cases hstep.symm.trans h
      exact reads
  · intro reads
    exact .inr ⟨s', hstep, reads⟩

end Ends

/-! ## Both places -/

/-- The state in the body of the function. -/
theorem run_functionTokens (ts : List Token) (n : Nat) : Lowering.run {} (functionTokens ts n) =
      Lowering.run { depth := ⟨0, 0, 1⟩, lastStop := 10 } (ts ++ (operatorAt '}' (n + 1) :: endAt (n + 2))) := by
  rfl

def inClosure : Lowering where
  depth := ⟨0, 0, 1⟩
  lastStop := 27
  checks := [⟨⟨1, 0, 1⟩, false⟩]
  edits := [(⟨11, 17, checkFunc ++ "("⟩, some .check)]

theorem run_closureTokens (ts : List Token) (n : Nat) :
    Lowering.run {} (closureTokens ts n) = inClosure.run (ts ++ (operatorAt '}' (n + 1) ::
      operatorAt ')' (n + 2) :: operatorAt '}' (n + 4) :: endAt (n + 5))) := by
  rfl

theorem readsBareCheck_closureTokens (ts : List Token) (n : Nat) :
    ({} : Lowering).ReadsBareCheck (closureTokens ts n) ↔ inClosure.ReadsBareCheck (ts ++
      (operatorAt '}' (n + 1) :: operatorAt ')' (n + 2) :: operatorAt '}' (n + 4) :: endAt (n + 5))) := by
  show ({} : Lowering).ReadsBareCheck (_ :: _ :: _ :: _ :: _ :: _ :: _ :: _ :: _ :: _ :: _ :: _ :: _) ↔ _
  iterate 12 refine (readsBareCheck_step rfl rfl).trans ?_
  exact Iff.rfl

/-- A check is a word. -/
theorem not_readsBareCheck (other : ∀ t ∈ ts, t.kind ≠ .ident) :
    ¬ s.ReadsBareCheck ts := by
  induction ts generalizing s with
  | nil => exact id
  | cons t ts ih =>
    obtain ⟨kind, other⟩ := forall_mem_cons.mp other
    rintro (⟨brace, -, bare⟩ | ⟨s', -, reads⟩)
    · have marker := bare.marker
      simp only [isMarker, Token.isIdent, Bool.and_eq_true, beq_iff_eq] at marker
      exact kind marker.1.1
    · exact ih other reads

theorem readsContext_functionTokens (h : ({ depth := ⟨0, 0, 1⟩, lastStop := 10 } : Lowering).ReadsContext
      (ts ++ (operatorAt '}' (n + 1) :: endAt (n + 2)))) :
    ({} : Lowering).ReadsContext (functionTokens ts n) :=
  .inr ⟨_, rfl, .inr ⟨_, rfl, .inr ⟨_, rfl, .inr ⟨_, rfl, .inr ⟨_, rfl, h⟩⟩⟩⟩⟩

theorem within_start : Within 17 inClosure.edits {} { depth := ⟨0, 0, 1⟩, lastStop := 10 } inClosure :=
  ⟨rfl, rfl, rfl, rfl, rfl, rfl, by decide, by simp, rfl⟩

/-- **The same edits.** The run over the body in the closure ends well if the one
in the function does, and adds to its edits those of the check around it. -/
theorem run_closure (kinds : ∀ t ∈ ts, t.kind ≠ .endOfText)
    (balanced : Balanced {} ts) (free : ¬ ({} : Lowering).ReadsContext (functionTokens ts n))
    (h : Lowering.run {} (functionTokens ts n) = .ok final) :
    ∃ final', Lowering.run {} (closureTokens (ts.map (Token.shift 17)) (n + 17)) = .ok final' ∧
      final'.edits = (Edit.insert (n + 20) ")", none) :: (final.edits.map (shiftMarked 17) ++ inClosure.edits) ∧
      ¬ ({} : Lowering).ReadsBareCheck (closureTokens (ts.map (Token.shift 17)) (n + 17)) := by
  rw [run_functionTokens] at h
  rw [run_closureTokens, readsBareCheck_closureTokens]
  have next : (operatorAt '}' (n + 17 + 1) :: operatorAt ')' (n + 17 + 2) :: operatorAt '}' (n + 17 + 4) ::
      endAt (n + 17 + 5)).head? = (operatorAt '}' (n + 1) :: endAt (n + 2)).head?.map (Token.shift 17) := by
    rw [Nat.add_right_comm n 17 1]
    rfl
  obtain ⟨s1, s1', hend, within, same, bare⟩ :=
    within_start.run kinds balanced (fun reads => free (readsContext_functionTokens reads)) next h
  rw [same, bare]
  obtain ⟨flat, zero⟩ := flat_of_total within.inner within.total within.block.1 within.block.2.1 within.block.2.2
  obtain ⟨depth, headers, cs, handler, dot, last, edits⟩ := s1
  obtain ⟨depth', headers', cs', handler', dot', last', edits'⟩ := s1'
  obtain ⟨rfl, rfl, -, rfl, rfl, rfl, -, -, -⟩ := within
  have flat : depth = ⟨0, 0, 1⟩ := flat
  subst flat
  have zero' : ∀ c ∈ cs.map OpenCheck.plain, c.depth = {} := by
    intro c hc
    obtain ⟨b, hb, rfl⟩ := mem_map.mp hc
    exact zero b hb
  rw [run_functionEnd zero] at hend
  cases hend
  refine ⟨_, run_closureEnd zero', ?_, ?_⟩
  · simp only [length_map, map_append, map_replicate, append_assoc]
    rfl
  · exact not_readsBareCheck (by simp [operatorAt, endAt, autoSemicolon])

end Lowering

/-- **A body is lowered in the same way inside a checked call**, unless it has a
handler or a check that ends at the block of its statement, outside of its own
checks. The edits of the body and their markers are those it has in a function,
and only the check around it is added. -/
theorem lower_closure {plain checked : String} {ts : List Token} {n : Nat} {l : Lowered}
    (hplain : (scan .marked plain).tokens = functionTokens ts n)
    (hchecked : (scan .marked checked).tokens = closureTokens (ts.map (Token.shift 17)) (n + 17))
    (scanned : (scan .marked checked).fault = none)
    (kinds : ∀ t ∈ ts, t.kind ≠ .endOfText) (balanced : Balanced {} ts)
    (free : ¬ ({} : Lowering).ReadsContext (functionTokens ts n)) (h : lower plain = .ok l) :
    ∃ l' markers, lower checked = .ok l' ∧
      l'.edits = ⟨11, 17, checkFunc ++ "("⟩ :: (l.edits.map (Edit.shift 17) ++ [Edit.insert (n + 20) ")"]) ∧
      l.markers = Markers.ofPlacements (markers.zip l.offsets.placements) ∧
      l'.markers = Markers.ofPlacements ((some .check :: (markers ++ [none])).zip l'.offsets.placements) := by
  obtain ⟨-, final, hrun, hfinish⟩ := lower_ok h
  obtain ⟨-, edits, -, markers⟩ := Lowering.finish_ok hfinish
  rw [hplain] at hrun
  obtain ⟨final', hrun', edits', bare⟩ := Lowering.run_closure kinds balanced free hrun
  rw [← hchecked] at hrun' bare
  have placed := (run_apart hrun').mpr bare
  have lowered : lower checked = final'.finish checked := by
    rw [lower_eq, hrun', scanned]
  have finished : ∃ l', final'.finish checked = .ok l' := by
    rw [Lowering.written] at placed
    simp only [Lowering.finish, map_reverse, placed]
    exact ⟨_, rfl⟩
  obtain ⟨l', hl'⟩ := finished
  obtain ⟨-, written', -, markers'⟩ := Lowering.finish_ok hl'
  refine ⟨l', _, lowered.trans hl', ?_, markers, ?_⟩
  · rw [written', edits, Lowering.written, Lowering.written, edits']
    simp [Lowering.inClosure, shiftMarked, Function.comp_def]
  · rw [markers', edits']
    simp [Lowering.inClosure, shiftMarked, Function.comp_def]

/-- The tokens of an assignment with a check. -/
def assignment : List Token := ((tokensOf "func g() \x7b x := check k()").drop 5).dropLast

def assignedInClosure : String := "func g() \x7b check h(func() \x7b x := check k() \x7d) \x7d"

theorem lower_closure_assignment : ∃ l', lower assignedInClosure = .ok l' ∧
      l'.edits = [⟨11, 17, "_go2check("⟩, ⟨33, 39, "_go2check("⟩, ⟨42, 42, ")"⟩, ⟨45, 45, ")"⟩] := by
  have plain : (lower "func g() \x7b x := check k() \x7d").toOption.map Lowered.edits =
      some [⟨16, 22, "_go2check("⟩, ⟨25, 25, ")"⟩] := by
    decide +kernel
  cases hl : lower "func g() \x7b x := check k() \x7d" with
  | error fault =>
    rw [hl] at plain
    cases plain
  | ok l =>
    rw [hl] at plain
    have edits : l.edits = _ := Option.some.inj plain
    obtain ⟨l', _, hl', edits', -⟩ := @lower_closure _ assignedInClosure assignment 25 l
      (by decide +kernel) (by decide +kernel) (by decide +kernel) (by decide +kernel) (by decide +kernel)
      (by decide +kernel) hl
    refine ⟨l', hl', ?_⟩
    rw [edits', edits]
    rfl

/-- The tokens of a conditional with a check. -/
def conditional : List Token := ((tokensOf "func g() \x7b if check k() \x7b \x7d").drop 5).dropLast

/-- The check of a conditional ends at the block in a function, and after it in a
checked call. -/
theorem lower_conditional : ({} : Lowering).ReadsContext (functionTokens conditional 27) ∧
    (lower "func g() \x7b if check k() \x7b \x7d \x7d").toOption.map Lowered.edits =
      some [⟨14, 20, "_go2check("⟩, ⟨23, 23, ")"⟩] ∧
    (lower "func g() \x7b check h(func() \x7b if check k() \x7b \x7d \x7d) \x7d").toOption.map Lowered.edits =
      some [⟨11, 17, "_go2check("⟩, ⟨31, 37, "_go2check("⟩, ⟨44, 44, ")"⟩, ⟨47, 47, ")"⟩] := by
  refine ⟨?_, ?_, ?_⟩ <;> decide +kernel

end CheckHandle
