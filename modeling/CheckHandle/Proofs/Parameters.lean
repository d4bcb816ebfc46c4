import CheckHandle.Proofs.SourceOrder
import CheckHandle.Ty.OfSyntax

/-!
# Slots of a parameter list

An entry of a parameter list fills one slot of the function, whether it spells a
type or is one more name for the type of a later entry. Grouping the entries into
fields and taking the fields apart again keeps the slots and their order.
-/

namespace CheckHandle

open List

open Build (Ensures)

/-- One parameter: its name, and the type that is written for it. -/
structure ParamSlot where
  name : Option Ident
  ty : TypeExpr
  variadic : Bool

namespace ParamSlot

/-- The parameter is declared by this entry. -/
def of (p : RawParam) (name : Option Ident) : ParamSlot := ⟨name, p.ty, p.variadic⟩

/-- The type of the parameter inside the function. -/
def resolve (names : Resolver) (s : ParamSlot) : Option Ty :=
  (s.ty.resolve names).map fun ty => if s.variadic then .slice ty else ty

end ParamSlot

/-- The parameters of a field: one for each name, or one without a name. -/
def Field.slots (f : Field) : List ParamSlot :=
  (if f.names.isEmpty then [none] else f.names.map some).map fun x => ⟨x, f.ty, f.variadic⟩

/-- The name that an entry declares where entries are grouped: a plain word is
the type of an entry without a name. -/
def RawParam.declared? (p : RawParam) : Option Ident :=
  match p.name, p.ty, p.variadic with
  | some name, _, _ => some name
  | none, .name info none name, false => some ⟨info, name⟩
  | _, _, _ => none

/-- Every entry has a slot with its name, and with the type of the first entry
from it on that has both a name and a type. -/
inductive Grouped : List RawParam → List ParamSlot → Prop
  | nil : Grouped [] []
  | cons {p q ps x ss} : p.declared? = some x → (p :: ps).find? (·.name.isSome) = some q → Grouped ps ss →
    Grouped (p :: ps) (.of q (some x) :: ss)

/-- What becomes of the entries: slots without names if none is named. -/
def SlotsOf (raw : List RawParam) (ss : List ParamSlot) : Prop :=
  if raw.all fun p => p.name.isNone then ss = raw.map (ParamSlot.of · none) else Grouped raw ss

theorem Grouped.length_eq {raw : List RawParam} {ss : List ParamSlot} (h : Grouped raw ss) :
    ss.length = raw.length := by
  induction h with
  | nil => rfl
  | cons _ _ _ ih => rw [length_cons, length_cons, ih]

/-- The names that wait come first, with the type of the next named entry. -/
theorem groupParams_slots (list : Span) (pending : List Ident) (ps : List RawParam) :
    Ensures (fun fs => ∃ ss, Grouped ps ss ∧ (pending = [] ∧ fs.flatMap Field.slots = ss ∨
      ∃ q, ps.find? (·.name.isSome) = some q ∧
        fs.flatMap Field.slots = pending.reverse.map (ParamSlot.of q ∘ some) ++ ss)) (groupParams list pending ps) := by
  induction ps generalizing pending with
  | nil =>
    rw [groupParams]
    split
    · rename_i none
      exact .pure ⟨[], .nil, .inl ⟨isEmpty_iff.mp none, rfl⟩⟩
    · exact .fail
  | cons p ps ih =>
    rw [groupParams]
    split
    · rename_i name hname
      refine .bind (.any _) fun info _ => .bind (ih []) fun fs ⟨ss, grouped, rest⟩ => .pure ?_
      have first : (p :: ps).find? (·.name.isSome) = some p := by simp [hname]
      have later : fs.flatMap Field.slots = ss := by
        rcases rest with ⟨-, rest⟩ | ⟨q, -, rest⟩ <;> exact rest
      have declared : p.declared? = some name := by simp [RawParam.declared?, hname]
      refine ⟨_, .cons declared first grouped, .inr ⟨p, first, ?_⟩⟩
      rw [flatMap_cons, later, Field.slots]
      simp [ParamSlot.of]
    · rename_i hname
      split
      · rename_i info name hty hvariadic
        refine (ih _).mono fun fs ⟨ss, grouped, rest⟩ => ?_
        obtain ⟨none, -⟩ | ⟨q, hq, rest⟩ := rest
        · cases none
        · have first : (p :: ps).find? (·.name.isSome) = some q := by simpa [hname] using hq
          have declared : p.declared? = some ⟨info, name⟩ := by simp [RawParam.declared?, hname, hty, hvariadic]
          refine ⟨_, .cons declared first grouped, .inr ⟨q, first, ?_⟩⟩
          rw [rest]
          simp
      · exact .fail

theorem fieldsOfParams_slots (list : Span) (raw : List RawParam) :
    Ensures (fun fs => SlotsOf raw (fs.flatMap Field.slots)) (fieldsOfParams list raw) := by
  unfold fieldsOfParams SlotsOf
  split
  · rename_i unnamed
    clear unnamed
    induction raw with
    | nil => exact .pure rfl
    | cons p ps ih =>
      rw [mapM_cons]
      refine .bind (P := fun f => f.slots = [.of p none]) (.bind (.any _) fun _ _ => .pure rfl) fun f hf =>
        .bind ih fun fs hfs => .pure ?_
      rw [flatMap_cons, hf, hfs]
      rfl
  · refine (groupParams_slots list [] raw).mono fun fs ⟨ss, grouped, rest⟩ => ?_
    rcases rest with ⟨-, rest⟩ | ⟨q, -, rest⟩ <;> exact rest ▸ grouped

theorem SlotsOf.length_eq {raw : List RawParam} {ss : List ParamSlot} (h : SlotsOf raw ss) :
    ss.length = raw.length := by
  unfold SlotsOf at h
  split at h
  · rw [h, length_map]
  · exact h.length_eq

/-! ## Entries and their trees -/

/-- The last tree of a rule. -/
def lastOf (r : Rule) (ts : List Tree) : Option Tree := ts.reverse.find? (·.rule == r)

theorem lastOf_cons (r : Rule) (t : Tree) (ts : List Tree) :
    lastOf r (t :: ts) = (lastOf r ts).or (if t.rule == r then some t else none) := by
  rw [lastOf, reverse_cons, find?_append, find?_singleton, lastOf]

/-- The entry has the parts of the tree: its name and where that stands, whether
there is an ellipsis, and the type that its type is built to. -/
structure RawParam.ReadFrom (t : Tree) (p : RawParam) : Prop where
  name : p.name.map (fun x => (x.name, x.info.span)) = (lastOf .ident t.children).map fun u => (u.word, u.span)
  variadic : p.variadic = (lastOf .ellipsis t.children).isSome
  ty : ∃ u n n', lastOf .typeExpr t.children = some u ∧ buildType u n = .ok (p.ty, n')

theorem buildIdent_reads (t : Tree) : Ensures (fun x => x.name = t.word ∧ x.info.span = t.span) (buildIdent t) := by
  intro n x n' h
  obtain rfl : _ = x := congrArg Prod.fst (Except.ok.inj h)
  exact ⟨rfl, rfl⟩

/-- What is read later takes the place of what was read before. -/
theorem buildParamFrom_reads (span : Span) (name : Option Ident) (variadic : Bool) (ty : Option TypeExpr)
    (ts : List Tree) : Ensures (fun p =>
      p.name.map (fun x => (x.name, x.info.span)) =
        ((lastOf .ident ts).map fun u => (u.word, u.span)).or (name.map fun x => (x.name, x.info.span)) ∧
      p.variadic = ((lastOf .ellipsis ts).isSome || variadic) ∧
      ((∃ u n n', lastOf .typeExpr ts = some u ∧ buildType u n = .ok (p.ty, n')) ∨
        lastOf .typeExpr ts = none ∧ ty = some p.ty)) (buildParamFrom span name variadic ty ts) := by
  induction ts generalizing name variadic ty with
  | nil =>
    cases ty with
    | some ty => exact .pure ⟨by simp [lastOf], by simp [lastOf], .inr ⟨rfl, rfl⟩⟩
    | none => exact .fail
  | cons t ts ih =>
    rw [buildParamFrom]
    split
    · rename_i rule
      refine .bind (buildIdent_reads t) fun x hx => (ih (some x) variadic ty).mono fun p hp => ?_
      cases h : lastOf .ident ts <;> simp_all [lastOf_cons]
    · rename_i rule
      refine (ih name true ty).mono fun p hp => ?_
      simpa [lastOf_cons, rule] using hp
    · rename_i rule
      refine .bind (P := fun ty => ∃ n n', buildType t n = .ok (ty, n')) (fun n _ n' h => ⟨n, n', h⟩)
        fun ty' hty' => (ih name variadic (some ty')).mono fun p hp => ?_
      cases h : lastOf .typeExpr ts <;> simp_all [lastOf_cons]
    · exact .fail

theorem buildRawParam_reads (t : Tree) : Ensures (RawParam.ReadFrom t) (buildRawParam t) := by
  obtain ⟨_, start, text, children⟩ := t
  rw [buildRawParam]
  refine (buildParamFrom_reads _ _ _ _ _).mono fun p ⟨name, variadic, ty⟩ => ?_
  refine ⟨by simpa [Tree.children] using name, by simpa [Tree.children] using variadic, ?_⟩
  rcases ty with ty | ⟨-, ty⟩
  · exact ty
  · cases ty

theorem buildRawParams_reads (ts : List Tree) : Ensures (Forall₂ RawParam.ReadFrom ts) (buildRawParams ts) := by
  induction ts with
  | nil => exact .pure .nil
  | cons t ts ih => exact .bind (buildRawParam_reads t) fun p hp => .bind ih fun ps hps => .pure (.cons hp hps)

/-! ## Types of the slots -/

theorem mapM_slots (names : Resolver) (f : Field) : f.slots.mapM (ParamSlot.resolve names) =
    (f.ty.resolve names).map fun ty => replicate (max f.names.length 1) (if f.variadic then .slice ty else ty) := by
  have count : (if f.names.isEmpty then [none] else f.names.map some).length = max f.names.length 1 := by
    cases f.names <;> simp
  unfold Field.slots
  rw [← count]
  have filled : (if f.names.isEmpty then [none] else f.names.map some) ≠ [] := by cases f.names <;> simp
  generalize (if f.names.isEmpty then [none] else f.names.map some) = xs at filled
  cases hty : f.ty.resolve names with
  | none =>
    obtain ⟨x, xs, rfl⟩ := exists_cons_of_ne_nil filled
    simp [ParamSlot.resolve, hty]
  | some ty =>
    clear filled count
    induction xs with
    | nil => rfl
    | cons x xs ih =>
      rw [map_cons, mapM_cons, ih]
      simp [ParamSlot.resolve, hty, replicate_succ]

/-- One type for each slot, in the order of the slots. -/
theorem resolveParams_eq (names : Resolver) (fs : List Field) : resolveParams names fs =
    ((fs.flatMap Field.slots).mapM (ParamSlot.resolve names)).map (·, (fs.flatMap Field.slots).any (·.variadic)) := by
  induction fs with
  | nil => rfl
  | cons f fs ih =>
    have own : f.slots.any (·.variadic) = f.variadic := by
      unfold Field.slots
      cases f.names <;> simp
    rw [flatMap_cons, mapM_append, mapM_slots, any_append, own]
    obtain ⟨_, ids, ty, variadic, _⟩ := f
    rw [resolveParams, ih]
    cases ty.resolve names with
    | none => rfl
    | some ty => cases (fs.flatMap Field.slots).mapM (ParamSlot.resolve names) <;> rfl

/-- **Parameters keep their slots.** What is built from a parameter list has one
slot for each entry, in their order. The entries have the names, ellipses and
types of their trees. The slots are without names if no entry is named, and else
have the names of all entries and the types of the first named entries from them
on. The type of a function with these parameters has the types of the slots. -/
theorem buildParams_slots {t : Tree} {n n' : NodeId} {fields : List Field}
    (h : buildParams t n = .ok (fields, n')) : let slots := fields.flatMap Field.slots
    ∃ raw, Forall₂ RawParam.ReadFrom t.children raw ∧ SlotsOf raw slots ∧ slots.length = t.children.length ∧
      ∀ names results, Signature.resolve names ⟨fields, results⟩ = do
        let types ← slots.mapM (ParamSlot.resolve names)
        return ⟨types, ← resolveResults names results, slots.any (·.variadic)⟩ := by
  obtain ⟨_, start, text, children⟩ := t
  rw [buildParams] at h
  obtain ⟨raw, n1, hraw, h⟩ := Builds.bind_ok h
  have entries := buildRawParams_reads children hraw
  have slots := fieldsOfParams_slots _ raw h
  refine ⟨raw, entries, slots, slots.length_eq.trans entries.length_eq.symm, fun names results => ?_⟩
  rw [Signature.resolve, resolveParams_eq]
  cases (fields.flatMap Field.slots).mapM (ParamSlot.resolve names) <;> rfl

/-- The list `(a, b int)`. -/
def sharedType : Tree := .node .params 0 "(a, b int)".toList
  [.node .param 1 ['a'] [.node .typeExpr 1 ['a'] [.node .typeName 1 ['a'] [.node .ident 1 ['a'] []]]],
   .node .param 4 "b int".toList [.node .ident 4 ['b'] [], .node .typeExpr 6 "int".toList
    [.node .typeName 6 "int".toList [.node .ident 6 "int".toList []]]]]

/-- It has the two slots `a int` and `b int`. -/
theorem buildParams_slots_sharedType : ∃ fields n', buildParams sharedType 0 = .ok (fields, n') ∧
    (fields.flatMap Field.slots).length = 2 ∧
    (fields.flatMap Field.slots).map (fun s => (s.name.map (·.name), s.ty.isNamed "int", s.variadic)) =
      [(some "a", true, false), (some "b", true, false)] := by
  refine ⟨_, _, rfl, ?_, by decide +kernel⟩
  obtain ⟨raw, -, -, two, -⟩ := buildParams_slots (t := sharedType) (n := 0) rfl
  exact two

end CheckHandle
