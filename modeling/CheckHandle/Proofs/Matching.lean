import CheckHandle.Proofs.Names

/-!
# Following a match

A match moves a cursor over the input. Something may hold of the cursor all
along (`Steady.Holds`), and the cursor may get lost once and for all
(`Steady.Lost`). If gaps, operators and tokens behave, so does every match, and
where it has not got lost something is known of the identifiers it read.
-/

namespace CheckHandle

open Text List

variable {r : Rule} {ts : List Tree} {p : Pattern} {call : RuleMatcher}

/-- The characters of the operators and delimiters in the grammar. -/
def isOperatorChar (c : Char) : Bool :=
  c ∈ ['(', ')', '[', ']', '\x7b', '\x7d', ',', ';', ':', '.', '=', '+', '-', '*', '/', '%', '&', '|',
    '^', '<', '>', '!']

/-- Outside tokens, a pattern has rules and operators only. -/
def Pattern.isLoose : Pattern → Bool
  | .lit text => text.all isOperatorChar
  | .one _ | .any | .not _ => false
  | .seq p q | .alt p q => p.isLoose && q.isLoose
  | .opt p | .star p => p.isLoose
  | _ => true

theorem Rule.body_isLoose (token : r.isToken = false) : r.body.isLoose = true := by
  cases r <;> first | rfl | cases token

/-- One tree of a rule that stands first. -/
theorem map_rule_eq_cons {rs : List Rule} (h : ts.map Tree.rule = r :: rs) :
    ∃ start text children ts', ts = .node r start text children :: ts' ∧ ts'.map Tree.rule = rs := by
  rcases ts with _ | ⟨⟨r', start, text, children⟩, ts⟩
  · cases h
  · rw [map_cons, List.cons.injEq] at h
    obtain ⟨rfl, h⟩ := h
    exact ⟨start, text, children, ts, rfl, h⟩

theorem takeBytes_byteLength (cs rest : List Char) : takeBytes (byteLength cs) (cs ++ rest) = cs := by
  induction cs with
  | nil =>
    cases rest with
    | nil => rfl
    | cons x rest => simp [takeBytes, Nat.ne_of_gt x.utf8Size_pos]
  | cons x cs ih => simp [takeBytes, ih]

/-- An operator is one of the texts of its rule. -/
theorem Pattern.run_literals {texts : List (List Char)} (literals : p.literals = some texts)
    {inToken : Bool} {c c' : Cursor} {f f' : Furthest}
    (run : p.run call inToken c f = .matched c' ts f') :
    takeBytes (c'.offset - c.offset) c.rest ∈ texts := by
  induction p generalizing f texts with
  | lit text =>
    cases literals
    rw [Pattern.run] at run
    split at run
    · rename_i hstrip
      cases run
      simp only [Cursor.strip, Option.ite_none_right_eq_some] at hstrip
      obtain ⟨hpre, ⟨⟩⟩ := hstrip
      obtain ⟨rest, hrest⟩ := isPrefixOf_iff_prefix.mp hpre
      rw [mem_singleton, ← hrest, Nat.add_sub_cancel_left, takeBytes_byteLength]
    · cases run
  | alt p q ihp ihq =>
    simp only [Pattern.literals, bind, Option.bind_eq_some_iff] at literals
    obtain ⟨a, ha, b, hb, ⟨⟩⟩ := literals
    rw [Pattern.run] at run
    split at run
    · exact mem_append_right _ (ihq hb run)
    · rename_i hp
      cases run
      exact mem_append_left _ (ihp ha hp)
  | _ => cases literals

/-- The rounds of a repetition of `step`. Gaps are skipped before the first one if
`skip` is set, and before the others if `gaps` is. -/
inductive Rounds (step : Cursor → Furthest → Outcome) (gaps : Bool) :
    Bool → Cursor → Furthest → Cursor → List Tree → Furthest → Prop where
  | done {skip : Bool} {c : Cursor} {f f' : Furthest} (none : step (if skip then c.skipGaps else c) f = .failed f') :
    Rounds step gaps skip c f c [] f'
  | last {skip : Bool} {c c' : Cursor} {f f' : Furthest} {ts : List Tree}
    (one : step (if skip then c.skipGaps else c) f = .matched c' ts f') : Rounds step gaps skip c f c' ts f'
  | more {skip : Bool} {c c1 c' : Cursor} {f f1 f' : Furthest} {ts ts' : List Tree}
    (one : step (if skip then c.skipGaps else c) f = .matched c1 ts f1) (rest : Rounds step gaps gaps c1 f1 c' ts' f') :
    Rounds step gaps skip c f c' (ts ++ ts') f'

theorem repeatMatch_rounds (step : Cursor → Furthest → Outcome) (gaps : Bool) (bound : List Char) (c : Cursor)
    (f : Furthest) : ∃ c' ts f', repeatMatch step gaps bound c f = .matched c' ts f' ∧
      Rounds step gaps gaps c f c' ts f' := by
  induction bound generalizing c f with
  | nil =>
    rw [repeatMatch]
    split
    · rename_i none
      exact ⟨_, _, _, rfl, .done none⟩
    · rename_i one
      exact ⟨_, _, _, rfl, .last one⟩
  | cons _ bound ih =>
    rw [repeatMatch]
    split
    · rename_i none
      exact ⟨_, _, _, rfl, .done none⟩
    · rename_i c1 ts f1 one
      split
      · exact ⟨_, _, _, rfl, .last one⟩
      · obtain ⟨c', ts', f', run, rest⟩ := ih c1 f1
        rw [run]
        exact ⟨_, _, _, rfl, .more one rest⟩

/-- A repetition matches, be it nothing. -/
theorem Pattern.star_rounds (p : Pattern) (call : RuleMatcher) (inToken : Bool) (c : Cursor) (f : Furthest) :
    ∃ c' ts f', (star p).run call inToken c f = .matched c' ts f' ∧
      Rounds (p.run call inToken) (!inToken) false c f c' ts f' := by
  rw [run]
  split
  · rename_i none
    exact ⟨_, _, _, rfl, .done none⟩
  · rename_i c1 ts f1 one
    split
    · exact ⟨_, _, _, rfl, .last one⟩
    · obtain ⟨c', ts', f', run, rest⟩ := repeatMatch_rounds (p.run call inToken) (!inToken) c1.rest c1 f1
      rw [run]
      exact ⟨_, _, _, rfl, .more one rest⟩

/-- What holds of the cursor of a match, when it is lost, and what is known of
the identifiers that it reads. -/
structure Steady where
  Holds : Cursor → Prop
  Lost : Cursor → Prop
  Knows : Name → Prop
  gaps : ∀ {c : Cursor}, Holds c → Holds c.skipGaps ∧ (Lost c → Lost c.skipGaps)
  operator : ∀ {c c' : Cursor} {text : List Char}, text.all isOperatorChar = true → Holds c → c.strip text = some c' →
    Holds c' ∧ (Lost c → Lost c')
  token : ∀ {r : Rule} {depth : Nat} {c c' : Cursor} {trees : List Tree} {f f' : Furthest}, r.isToken = true → Holds c →
    r.body.run (matchRule depth) true c f = .matched c' trees f' → Holds c' ∧ (Lost c → Lost c')
  ident : ∀ {depth : Nat} {c c' : Cursor} {trees : List Tree} {f f' : Furthest}, Holds c →
    Rule.ident.body.run (matchRule depth) true c f = .matched c' trees f' → ¬Lost c' →
    Knows (String.ofList (trim (takeBytes (c'.offset - c.offset) c.rest)), some c.offset) ∧
      Knows (String.ofList (takeBytes (c'.offset - c.offset) c.rest), some c.offset)

namespace Steady

variable {s : Steady} {c c' c'' : Cursor} {f f' : Furthest} {us : List Tree}

/-- A match from one cursor to another leaves these trees. -/
structure Leads (s : Steady) (c c' : Cursor) (ts : List Tree) : Prop where
  holds : s.Holds c'
  lost : s.Lost c → s.Lost c'
  bears : ¬s.Lost c' → TreesBear s.Knows ts

theorem Leads.refl (h : s.Holds c) : s.Leads c c [] := ⟨h, id, fun _ => by rw [TreesBear]; trivial⟩

theorem Leads.trans (h : s.Leads c c' ts) (h' : s.Leads c' c'' us) : s.Leads c c'' (ts ++ us) where
  holds := h'.holds
  lost := h'.lost ∘ h.lost
  bears hlost := by
    have hts := h.bears (hlost ∘ h'.lost)
    have hus := h'.bears hlost
    clear h h'
    induction ts with
    | nil => exact hus
    | cons t ts ih =>
      rw [cons_append, TreesBear]
      exact ⟨hts.head.1, ih hts.head.2⟩

/-- Gaps are skipped or not. -/
theorem leads_gaps (h : s.Holds c) (skip : Bool) : s.Leads c (if skip then c.skipGaps else c) [] := by
  split
  · exact ⟨(s.gaps h).1, (s.gaps h).2, fun _ => by rw [TreesBear]; trivial⟩
  · exact .refl h

/-- The trees that a rule leaves. -/
structure Leaves (s : Steady) (r : Rule) (c c' : Cursor) (ts : List Tree) : Prop extends s.Leads c c' ts where
  spells : (Pattern.rule r).Spells (ts.map Tree.rule)
  first : ∀ t ∈ ts.head?, t.start = c.offset

/-- Rules are matched steadily. -/
def Matches (s : Steady) (call : RuleMatcher) : Prop :=
  ∀ ⦃r c f c' ts f'⦄, s.Holds c → call false r c f = .matched c' ts f' → s.Leaves r c c' ts

theorem leads_rounds {step : Cursor → Furthest → Outcome} {gaps skip : Bool}
    (hstep : ∀ {c f c' ts f'}, s.Holds c → step c f = .matched c' ts f' → s.Leads c c' ts ∧ p.Spells (ts.map Tree.rule))
    (h : s.Holds c) (rounds : Rounds step gaps skip c f c' ts f') :
    s.Leads c c' ts ∧ (Pattern.star p).Spells (ts.map Tree.rule) := by
  induction rounds with
  | done => exact ⟨.refl h, [], rfl, nofun⟩
  | @last skip _ _ _ _ _ one =>
    have gap := leads_gaps h skip
    obtain ⟨leads, spells⟩ := hstep gap.holds one
    exact ⟨gap.trans leads, .once spells⟩
  | @more skip _ _ _ _ _ _ _ _ one _ ih =>
    have gap := leads_gaps h skip
    obtain ⟨leads, spells⟩ := hstep gap.holds one
    obtain ⟨leads', rounds, hrounds, hall⟩ := ih leads.holds
    refine ⟨gap.trans (leads.trans leads'), _ :: rounds, ?_, forall_mem_cons.mpr ⟨spells, hall⟩⟩
    rw [map_append, hrounds, flatten_cons]

/-- A match outside tokens. -/
theorem leads_run (hcall : s.Matches call) (p : Pattern)
    (loose : p.isLoose = true) (h : s.Holds c) (run : p.run call false c f = .matched c' ts f') :
    s.Leads c c' ts ∧ p.Spells (ts.map Tree.rule) := by
  induction p generalizing c c' f f' ts with
  | empty =>
    cases run
    exact ⟨.refl h, rfl⟩
  | lit text =>
    rw [Pattern.run] at run
    split at run
    · rename_i hstrip
      cases run
      obtain ⟨holds, lost⟩ := s.operator loose h hstrip
      exact ⟨⟨holds, lost, fun _ => by rw [TreesBear]; trivial⟩, rfl⟩
    · cases run
  | one | any | not => cases loose
  | start | finish =>
    rw [Pattern.run] at run
    split at run
    · cases run
      exact ⟨.refl h, rfl⟩
    · cases run
  | rule r =>
    have leaves := hcall h run
    exact ⟨leaves.toLeads, leaves.spells⟩
  | seq p q ihp ihq =>
    obtain ⟨hp, hq⟩ := (Bool.and_eq_true _ _).mp loose
    rw [Pattern.run] at run
    split at run
    · cases run
    · rename_i hrunp
      split at run
      · cases run
      · rename_i hrunq
        cases run
        obtain ⟨leads1, spells1⟩ := ihp hp h hrunp
        have gaps := leads_gaps leads1.holds true
        obtain ⟨leads2, spells2⟩ := ihq hq gaps.holds hrunq
        refine ⟨leads1.trans (gaps.trans leads2), _, spells1, _, spells2, ?_⟩
        rw [map_append]
  | alt p q ihp ihq =>
    obtain ⟨hp, hq⟩ := (Bool.and_eq_true _ _).mp loose
    rw [Pattern.run] at run
    split at run
    · obtain ⟨leads, spells⟩ := ihq hq h run
      exact ⟨leads, .inr spells⟩
    · rename_i hrunp
      cases run
      obtain ⟨leads, spells⟩ := ihp hp h hrunp
      exact ⟨leads, .inl spells⟩
  | opt p ih =>
    rw [Pattern.run] at run
    split at run
    · cases run
      exact ⟨.refl h, .inl rfl⟩
    · rename_i hrunp
      cases run
      obtain ⟨leads, spells⟩ := ih loose h hrunp
      exact ⟨leads, .inr spells⟩
  | star p ih =>
    obtain ⟨_, _, _, matched, rounds⟩ := p.star_rounds call false c f
    cases matched.symm.trans run
    exact leads_rounds (fun h hrun => ih loose h hrun) h rounds

/-- A qualified name starts where its first identifier starts. -/
theorem first_of_typeName (hcall : s.Matches call) (h : s.Holds c)
    (run : Rule.typeName.body.run call false c f = .matched c' ts f') :
    ∀ t ∈ ts.head?, t.start = c.offset := by
  rw [Rule.body, Pattern.run] at run
  split at run
  · cases run
  · rename_i hident
    split at run
    · cases run
    · cases run
      have leaves := hcall h hident
      obtain ⟨_, _, _, _, rfl, -⟩ := map_rule_eq_cons leaves.spells
      exact leaves.first

theorem matches_matchRule (s : Steady) (depth : Nat) : s.Matches (matchRule depth) := by
  induction depth with
  | zero =>
    intro r c f c' ts f' h run
    cases run
  | succ depth ih =>
    intro r c f c' ts f' h run
    rw [matchRule] at run
    split at run
    · cases run
    · rename_i c1 trees f1 hbody
      rw [Bool.false_or] at hbody
      simp only [Bool.false_eq_true, if_false] at run
      -- The cursor moves as the body of the rule moves it, whatever is left of the trees.
      have moves : s.Holds c1 ∧ (s.Lost c → s.Lost c1) := by
        cases token : r.isToken with
        | true =>
          rw [token] at hbody
          exact s.token token h hbody
        | false =>
          rw [token] at hbody
          obtain ⟨leads, -⟩ := leads_run ih _ (Rule.body_isLoose token) h hbody
          exact ⟨leads.holds, leads.lost⟩
      split at run
      · rename_i silent
        cases run
        refine ⟨⟨moves.1, moves.2, fun _ => by rw [TreesBear]; trivial⟩, ?_, nofun⟩
        simp [Pattern.Spells, silent]
      · rename_i silent
        cases run
        refine ⟨⟨moves.1, moves.2, fun hlost => ?_⟩, by simp [Pattern.Spells, silent, Tree.rule],
          fun t ht => by cases ht; rfl⟩
        rw [TreesBear, TreesBear, Tree.Bears]
        refine ⟨⟨?_, ?_, fun texts htexts => Pattern.run_literals htexts hbody, ?_, ?_⟩, trivial⟩
        · rintro rfl
          exact s.ident h hbody hlost
        · rintro rfl
          exact first_of_typeName ih h hbody
        · intro token
          rw [token] at hbody
          simp only [token, Bool.false_eq_true, if_false]
          exact (leads_run ih _ (Rule.body_isLoose token) h hbody).2
        · cases token : r.isToken with
          | true =>
            simp only [if_true]
            rw [TreesBear]
            trivial
          | false =>
            rw [token] at hbody
            simp only [Bool.false_eq_true, if_false]
            exact (leads_run ih _ (Rule.body_isLoose token) h hbody).1.bears hlost

end Steady

end CheckHandle
