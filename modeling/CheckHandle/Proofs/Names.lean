import CheckHandle.Proofs.SourceOrder

/-!
# Names

The names that a file spells, each with the offset at which it starts, and
where they come from: every one is the text of an identifier that the grammar
matched there. What is known of the matched identifiers is thereby known of the
names of the file that is built.
-/

namespace CheckHandle

open Text List

variable {p : Pattern} {rs : List Rule}

/-! ## The names of a term -/

/-- A name, and where it starts if the syntax keeps that. -/
abbrev Name := String × Option Nat

/-- The names that a term of this kind spells itself. Of a qualified type, only
the offset of the first name is kept. -/
def Kind.spelled (start : Option Nat) : Kind → List Name
  | .ident x | .name x | .typeName none x => [(x, start)]
  | .typeName (some package) x => [(package, start), (x, none)]
  | _ => []

def infoStart? (info : Option Info) : Option Nat := info.map fun i => i.span.start

mutual

def Term.spelled : Term → List Name
  | .expr _ kind info parts => kind.spelled (some info.span.start) ++ spelledAll parts
  | .group kind info parts => kind.spelled (infoStart? info) ++ spelledAll parts
  | .fixed kind info parts => kind.spelled (infoStart? info) ++ spelledAll parts
  | .block _ ss => spelledStatements ss

def spelledAll : List Term → List Name
  | [] => []
  | t :: ts => t.spelled ++ spelledAll ts

def spelledStatements : List Statement → List Name
  | [] => []
  | .mk kind info parts :: ss =>
    kind.spelled (some info.span.start) ++ spelledAll parts ++ spelledStatements ss

end

/-- The names that a file spells: its identifiers, the names it declares or
selects, and those of types. -/
def File.spelled (f : File) : List Name := f.term.spelled

def Expr.spelled (x : Expr) : List Name := (x.term false).spelled

def TypeExpr.spelled (t : TypeExpr) : List Name := t.term.spelled

def Ident.spelled (x : Ident) : List Name := [(x.name, some x.info.span.start)]

def Field.spelled (f : Field) : List Name := f.term.spelled

def Signature.spelled (s : Signature) : List Name := s.term.spelled

def TypeSpec.spelled (s : TypeSpec) : List Name := spelledAll (typeSpecTerms [s])

/-- The names of an optional part. -/
def spelled? {α : Type} (spelled : α → List Name) (a : Option α) : List Name := (a.map spelled).getD []

section Names

variable {α : Type} {spelled : α → List Name} (listed : Bool) (start : Option Nat)

@[simp] theorem spelled?_none : spelled? spelled none = [] := rfl

@[simp] theorem spelled?_some (a : α) : spelled? spelled (some a) = spelled a := rfl

@[simp] theorem targetKind_spelled (define : Bool) : (targetKind define).spelled start = [] := by
  cases define <;> rfl

@[simp] theorem Stmt.kind_spelled (s : Stmt) : s.kind.spelled start = [] := by
  cases s <;> rfl

@[simp] theorem Term.absent_spelled : Term.absent.spelled = [] := rfl

@[simp] theorem Ident.term_spelled (x : Ident) : x.term.spelled = x.spelled := rfl

@[simp] theorem spelledAll_idents (xs : List Ident) :
    spelledAll (xs.map Ident.term) = xs.flatMap Ident.spelled := by
  induction xs with
  | nil => rfl
  | cons x xs ih => simp [spelledAll, ih]

@[simp] theorem identTerm?_spelled (x : Option Ident) : (identTerm? x).spelled = spelled? Ident.spelled x := by
  cases x <;> rfl

@[simp] theorem TypeExpr.term_spelled (t : TypeExpr) : t.term.spelled = t.spelled := rfl

@[simp] theorem Field.term_spelled (f : Field) : f.term.spelled = f.spelled := rfl

@[simp] theorem spelledAll_fields (fs : List Field) : spelledAll (fieldTerms fs) = fs.flatMap Field.spelled := by
  induction fs with
  | nil => rfl
  | cons f fs ih => simp [fieldTerms, spelledAll, ih]

@[simp] theorem Signature.term_spelled (s : Signature) : s.term.spelled = s.spelled := rfl

/-- An expression spells the same names wherever it stands. -/
@[simp] theorem Expr.term_spelled (x : Expr) : (Term.expr listed x.kind x.info x.parts).spelled = x.spelled := rfl

@[simp] theorem fixedTerm?_spelled (x : Option Expr) : (fixedTerm? x).spelled = spelled? Expr.spelled x := by
  cases x <;> rfl

@[simp] theorem spelledAll_typeSpecs (ss : List TypeSpec) :
    spelledAll (typeSpecTerms ss) = ss.flatMap TypeSpec.spelled := by
  induction ss with
  | nil => rfl
  | cons s ss ih =>
    obtain ⟨_, _, _, _⟩ := s
    simp [typeSpecTerms, spelledAll, TypeSpec.spelled, ih]

end Names

/-- Something is known of every one of these names. -/
def Known (P : Name → Prop) (ws : List Name) : Prop := ∀ w ∈ ws, P w

section Known

variable {P : Name → Prop} {α : Type} {spelled : α → List Name}

@[simp] theorem known_nil : Known P [] := nofun

@[simp] theorem known_cons (w : Name) (ws : List Name) : Known P (w :: ws) ↔ P w ∧ Known P ws := forall_mem_cons

@[simp] theorem known_append (ws vs : List Name) : Known P (ws ++ vs) ↔ Known P ws ∧ Known P vs := forall_mem_append

theorem known_flatMap {as : List α} : Known P (as.flatMap spelled) ↔ ∀ a ∈ as, Known P (spelled a) := by
  simp only [Known, mem_flatMap]
  exact ⟨fun h a ha w hw => h w ⟨a, ha, hw⟩, fun h w ⟨a, ha, hw⟩ => h a ha w hw⟩

end Known

/-! ## The shape of a match -/

namespace Pattern

/-- The rules of a pattern, from left to right. -/
def rules : Pattern → List Rule
  | .rule r => [r]
  | .seq p q | .alt p q => p.rules ++ q.rules
  | .opt p | .star p => p.rules
  | _ => []

/-- These are the rules of the trees that a match of the pattern may leave, in
order. -/
def Spells : Pattern → List Rule → Prop
  | .rule r, rs => rs = if r.isSilent then [] else [r]
  | .seq p q, rs => ∃ ps, p.Spells ps ∧ ∃ qs, q.Spells qs ∧ rs = ps ++ qs
  | .alt p q, rs => p.Spells rs ∨ q.Spells rs
  | .opt p, rs => rs = [] ∨ p.Spells rs
  | .star p, rs => ∃ rounds : List (List Rule), rs = rounds.flatten ∧ ∀ qs ∈ rounds, p.Spells qs
  | _, rs => rs = []

theorem Spells.once (h : p.Spells rs) : (star p).Spells rs :=
  ⟨[rs], by simp, by simpa using h⟩

theorem Spells.mem (h : p.Spells rs) {r : Rule} (hr : r ∈ rs) :
    r ∈ p.rules ∧ r.isSilent = false := by
  induction p generalizing rs with
  | rule s =>
    rw [Spells] at h
    split at h
    · rw [h] at hr
      cases hr
    · rename_i hs
      rw [h, mem_singleton] at hr
      exact ⟨by simp [rules, hr], by simpa [hr] using hs⟩
  | seq p q ihp ihq =>
    obtain ⟨ps, hps, qs, hqs, rfl⟩ := h
    rw [rules, mem_append]
    rcases mem_append.mp hr with hr | hr
    · exact ⟨.inl (ihp hps hr).1, (ihp hps hr).2⟩
    · exact ⟨.inr (ihq hqs hr).1, (ihq hqs hr).2⟩
  | alt p q ihp ihq =>
    rw [rules, mem_append]
    rcases h with h | h
    · exact ⟨.inl (ihp h hr).1, (ihp h hr).2⟩
    · exact ⟨.inr (ihq h hr).1, (ihq h hr).2⟩
  | opt p ih =>
    rcases h with rfl | h
    · cases hr
    · exact ih h hr
  | star p ih =>
    obtain ⟨rounds, rfl, h⟩ := h
    obtain ⟨qs, hqs, hr⟩ := mem_flatten.mp hr
    exact ih (h qs hqs) hr
  | empty | lit | one | any | start | finish | not =>
    obtain rfl : rs = [] := h
    cases hr

/-- All that a pattern may leave, if it repeats nothing. -/
def forms : Pattern → Option (List (List Rule))
  | .rule r => some [if r.isSilent then [] else [r]]
  | .seq p q => do
    let qs ← q.forms
    return (← p.forms).flatMap fun rs => qs.map (rs ++ ·)
  | .alt p q => do return (← p.forms) ++ (← q.forms)
  | .opt p => do return [] :: (← p.forms)
  | .star _ => none
  | _ => some [[]]

theorem Spells.mem_forms (h : p.Spells rs) {fs : List (List Rule)} (forms : p.forms = some fs) : rs ∈ fs := by
  induction p generalizing rs fs with
  | seq p q ihp ihq =>
    obtain ⟨ps, hps, qs, hqs, rfl⟩ := h
    simp only [Pattern.forms, bind, Option.bind_eq_some_iff] at forms
    obtain ⟨b, hb, a, ha, ⟨⟩⟩ := forms
    exact mem_flatMap.mpr ⟨ps, ihp hps ha, mem_map_of_mem (ihq hqs hb)⟩
  | alt p q ihp ihq =>
    simp only [Pattern.forms, bind, Option.bind_eq_some_iff] at forms
    obtain ⟨a, ha, b, hb, ⟨⟩⟩ := forms
    exact mem_append.mpr (h.imp (ihp · ha) (ihq · hb))
  | opt p ih =>
    simp only [Pattern.forms, bind, Option.bind_eq_some_iff] at forms
    obtain ⟨a, ha, ⟨⟩⟩ := forms
    exact mem_cons.mpr (h.imp id (ih · ha))
  | star p => cases forms
  | rule | empty | lit | one | any | start | finish | not =>
    cases forms
    exact mem_singleton.mpr h

/-- The texts of an operator rule. -/
def literals : Pattern → Option (List (List Char))
  | .lit text => some [text]
  | .alt p q => do return (← p.literals) ++ (← q.literals)
  | _ => none

end Pattern

mutual

/-- The tree has the shape that its rule allows, and something is known of the
names that its identifiers spell. -/
def Tree.Bears (P : Name → Prop) : Tree → Prop
  | .node rule start text children =>
    (rule = .ident → P (String.ofList (trim text), some start) ∧ P (String.ofList text, some start)) ∧
      (rule = .typeName → ∀ t ∈ children.head?, t.start = start) ∧
      (∀ texts ∈ rule.body.literals, text ∈ texts) ∧
      (rule.isToken = false → rule.body.Spells (children.map Tree.rule)) ∧ TreesBear P children

def TreesBear (P : Name → Prop) : List Tree → Prop
  | [] => True
  | t :: ts => t.Bears P ∧ TreesBear P ts

end

theorem TreesBear.head {P : Name → Prop} {t : Tree} {ts : List Tree} (h : TreesBear P (t :: ts)) :
    t.Bears P ∧ TreesBear P ts := by
  rw [TreesBear] at h
  exact h

end CheckHandle
