import Mathlib
import CheckHandle.Checker.Operand

/-!
# Promotion of members

A field or method is promoted from the shallowest embedded type that has it. The
search for a member goes depth first, so it finds the promoted one exactly where
no type that is embedded earlier has a member of that name, however deep.
-/

namespace CheckHandle

open List

/-- What a pointer points to, or the type itself. -/
def Ty.pointee : Ty → Ty
  | .pointer inner => inner
  | t => t

namespace TypeInfo

variable (info : TypeInfo) (name : String)

/-- The fields and methods of that name that a value has without what it embeds. -/
def ownMembers (t : Ty) : List Ty :=
  ((do (← info.named.get? (← t.pointee.key?)).methods.get? name : Option FuncTy).map Ty.func).toList ++
    match info.underlying t.pointee with
    | some (.struct fields) => (fields.filter (·.name == name)).map StructField.ty
    | some (.interface methods _) => (methods.filter (·.name == name)).map fun m => .func m.sig
    | _ => []

/-- The types that a type embeds, in their order. -/
def embedded (t : Ty) : List Ty :=
  match info.underlying t.pointee with
  | some (.struct fields) => (fields.filter StructField.embedded).map StructField.ty
  | some (.interface _ embeds) => embeds
  | _ => []

/-- The members of that name at one embedding depth. -/
def membersAt : (depth : Nat) → Ty → List Ty
  | 0, t => info.ownMembers name t
  | depth + 1, t => (info.embedded t).flatMap (membersAt depth)

/-- The only member of that name at the shallowest depth that has one. -/
structure Promotes (depth : Nat) (t member : Ty) : Prop where
  only : info.membersAt name depth t = [member]
  shallowest : ∀ k < depth, info.membersAt name k t = []

/-- On the way down to a member at `depth` no type that is embedded earlier has
a member of that name within the bound. -/
inductive Clear : (bound depth : Nat) → Ty → Prop where
  | here {bound : Nat} {t : Ty} : Clear (bound + 1) 0 t
  | through {bound depth : Nat} {t e : Ty} {before after : List Ty} (split : info.embedded t = before ++ e :: after)
      (free : ∀ b ∈ before, ∀ k < bound, info.membersAt name k b = []) (held : info.membersAt name depth e ≠ [])
      (further : Clear bound depth e) : Clear (bound + 1) (depth + 1) t

variable {info name} {t member : Ty} {bound depth : Nat}

/-- One step of the search: what the type has itself, and then what it embeds. -/
theorem memberWithin_succ : info.memberWithin name (bound + 1) t =
    (info.ownMembers name t).head?.or ((info.embedded t).findSome? (info.memberWithin name bound)) := by
  unfold memberWithin ownMembers embedded
  dsimp only
  split
  · rename_i sig declared
    change (do (← info.named.get? (← t.pointee.key?)).methods.get? name : Option FuncTy) = _ at declared
    rw [declared]
    rfl
  · rename_i declared
    change (do (← info.named.get? (← t.pointee.key?)).methods.get? name : Option FuncTy) = _ at declared
    rw [declared]
    split
    · rename_i fields under
      change info.underlying t.pointee = _ at under
      rw [under]
      simp only [Option.map_none, Option.toList_none, nil_append, head?_map, head?_filter, findSome?_map]
      cases fields.find? (·.name == name) <;> rfl
    · rename_i methods embeds under
      change info.underlying t.pointee = _ at under
      rw [under]
      simp only [Option.map_none, Option.toList_none, nil_append, head?_map, head?_filter]
      cases methods.find? (·.name == name) <;> rfl
    · rename_i struct interface
      split
      · rename_i under
        exact absurd under (struct _)
      · rename_i under
        exact absurd under (interface _ _)
      · rfl

/-- The search finds nothing exactly if there is nothing at any depth. -/
theorem memberWithin_eq_none : info.memberWithin name bound t = none ↔ ∀ k < bound, info.membersAt name k t = [] := by
  induction bound generalizing t with
  | zero => simp [memberWithin]
  | succ bound ih =>
    rw [memberWithin_succ, Option.or_eq_none_iff, head?_eq_none_iff, findSome?_eq_none_iff]
    constructor
    · rintro ⟨own, rest⟩ k hk
      cases k with
      | zero => exact own
      | succ k => exact flatMap_eq_nil_iff.mpr fun e he => ih.mp (rest e he) k (by omega)
    · intro h
      refine ⟨h 0 (by omega), fun e he => ih.mpr fun k hk => ?_⟩
      exact flatMap_eq_nil_iff.mp (h (k + 1) (by omega)) e he

/-- What the search finds is a member at some depth. -/
theorem mem_of_memberWithin (h : info.memberWithin name bound t = some member) :
    ∃ k < bound, member ∈ info.membersAt name k t := by
  induction bound generalizing t with
  | zero => simp [memberWithin] at h
  | succ bound ih =>
    rw [memberWithin_succ, Option.or_eq_some_iff] at h
    rcases h with own | ⟨-, rest⟩
    · exact ⟨0, by omega, mem_of_head? own⟩
    · obtain ⟨e, he, found⟩ := exists_of_findSome?_eq_some rest
      obtain ⟨k, hk, mem⟩ := ih found
      exact ⟨k + 1, by omega, mem_flatMap.mpr ⟨e, he, mem⟩⟩

namespace Promotes

/-- Of the embedded types only one has the promoted member. -/
theorem alone {before after : List Ty} {e : Ty} (h : info.Promotes name (depth + 1) t member)
    (split : info.embedded t = before ++ e :: after) (held : info.membersAt name depth e ≠ []) :
    (∀ b ∈ before, info.membersAt name depth b = []) ∧ info.membersAt name depth e = [member] := by
  have only := h.only
  rw [membersAt, split, flatMap_append, flatMap_cons, append_eq_singleton_iff, append_eq_singleton_iff] at only
  simp [held] at only
  exact ⟨only.1, only.2.1⟩

/-- The promoted member is promoted in the embedded type that has it. -/
theorem inner {before after : List Ty} {e : Ty} (h : info.Promotes name (depth + 1) t member)
    (split : info.embedded t = before ++ e :: after) (held : info.membersAt name depth e ≠ []) :
    info.Promotes name depth e member where
  only := (h.alone split held).2
  shallowest k hk := flatMap_eq_nil_iff.mp (h.shallowest (k + 1) (by omega)) e (split ▸ by simp)

/-- Some embedded type has the promoted member. -/
theorem exists_inner (h : info.Promotes name (depth + 1) t member) : ∃ before e after,
    info.embedded t = before ++ e :: after ∧ info.membersAt name depth e ≠ [] := by
  obtain ⟨e, he, mem⟩ := mem_flatMap.mp (show member ∈ info.membersAt name (depth + 1) t by simp [h.only])
  obtain ⟨before, after, split⟩ := append_of_mem he
  exact ⟨before, e, after, split, ne_nil_of_mem mem⟩

theorem memberWithin_of_clear (h : info.Promotes name depth t member) (clear : info.Clear name bound depth t) :
    info.memberWithin name bound t = some member := by
  induction clear with
  | here =>
    have own : info.ownMembers name _ = [member] := h.only
    rw [memberWithin_succ, own]
    rfl
  | through split free held further ih =>
    have own : info.ownMembers name _ = [] := h.shallowest 0 (by omega)
    have none_before := findSome?_eq_none_iff.mpr fun b hb => memberWithin_eq_none.mpr (free b hb)
    rw [memberWithin_succ, own, split, findSome?_append, none_before, findSome?_cons, ih (h.inner split held)]
    rfl

/-- Where the way is not clear, the search stops at a member that lies deeper. -/
theorem memberWithin_of_not_clear (h : info.Promotes name depth t member) (lt : depth < bound)
    (blocked : ¬ info.Clear name bound depth t) : ∃ k other, depth < k ∧ k < bound ∧
      other ∈ info.membersAt name k t ∧ info.memberWithin name bound t = some other := by
  induction depth generalizing t bound with
  | zero =>
    obtain ⟨bound, rfl⟩ := Nat.exists_eq_add_one.mpr lt
    exact absurd .here blocked
  | succ depth ih =>
    obtain ⟨bound, rfl⟩ := Nat.exists_eq_add_one.mpr (Nat.zero_lt_of_lt lt)
    obtain ⟨before, e, after, split, held⟩ := h.exists_inner
    have own : info.ownMembers name t = [] := h.shallowest 0 (by omega)
    rw [memberWithin_succ, own, split, findSome?_append, findSome?_cons]
    cases found : before.findSome? (info.memberWithin name bound) with
    | some other =>
      -- something of that name lies behind an earlier embedded type, and not as shallow
      obtain ⟨b, hb, inside⟩ := exists_of_findSome?_eq_some found
      obtain ⟨k, hk, mem⟩ := mem_of_memberWithin inside
      have deeper : depth < k := by
        rcases Nat.lt_trichotomy depth k with lt | rfl | gt
        · exact lt
        · simp [(h.alone split held).1 b hb] at mem
        · have := flatMap_eq_nil_iff.mp (h.shallowest (k + 1) (by omega)) b (by simp [split, hb])
          simp [this] at mem
      exact ⟨k + 1, other, by omega, by omega, mem_flatMap.mpr ⟨b, by simp [split, hb], mem⟩, rfl⟩
    | none =>
      have free : ∀ b ∈ before, ∀ k < bound, info.membersAt name k b = [] := fun b hb =>
        memberWithin_eq_none.mp (findSome?_eq_none_iff.mp found b hb)
      have further : ¬ info.Clear name bound depth e := fun further => blocked (.through split free held further)
      obtain ⟨k, other, deeper, hk, mem, inside⟩ := ih (h.inner split held) (by omega) further
      refine ⟨k + 1, other, by omega, by omega, mem_flatMap.mpr ⟨e, by simp [split], mem⟩, ?_⟩
      rw [inside]
      rfl

end Promotes

end TypeInfo

/-- **The promoted member is found exactly where the way to it is clear.** If a
name has one member at the shallowest depth at which it occurs, the search gives
its type where no type embedded earlier has the name at all. Elsewhere it gives
the type of a member that lies deeper. -/
theorem member_promoted (info : TypeInfo) (name : String) (t member : Ty) (depth : Nat) (searched : depth < 5)
    (promotes : info.Promotes name depth t member) :
    (info.Clear name 5 depth t → info.member t name = some member) ∧
    (¬ info.Clear name 5 depth t → ∃ k other, depth < k ∧ k < 5 ∧ other ∈ info.membersAt name k t ∧
      info.member t name = some other) :=
  ⟨promotes.memberWithin_of_clear, promotes.memberWithin_of_not_clear searched⟩

/-- The first of two embedded interfaces has a method one level further down,
the second has it itself. -/
def deepFirst : Ty :=
  .interface [] [.interface [] [.interface [⟨"Do", ⟨[], [.error], false⟩⟩] []],
    .interface [⟨"Do", ⟨[], [.basic .int, .error], false⟩⟩] []]

theorem promotes_deepFirst :
    ({} : TypeInfo).Promotes "Do" 1 deepFirst (.func ⟨[], [.basic .int, .error], false⟩) where
  only := rfl
  shallowest k hk := by
    obtain rfl : k = 0 := by omega
    rfl

theorem member_promoted_deepFirst : 1 < 5 ∧ ∃ member, ({} : TypeInfo).Promotes "Do" 1 deepFirst member ∧
    (({} : TypeInfo).Clear "Do" 5 1 deepFirst → ({} : TypeInfo).member deepFirst "Do" = some member) ∧
    (¬ ({} : TypeInfo).Clear "Do" 5 1 deepFirst → ∃ k other, 1 < k ∧ k < 5 ∧
      other ∈ ({} : TypeInfo).membersAt "Do" k deepFirst ∧ ({} : TypeInfo).member deepFirst "Do" = some other) :=
  ⟨by decide, _, promotes_deepFirst, member_promoted _ _ _ _ 1 (by decide) promotes_deepFirst⟩

/-- The search stops at the deeper method. -/
theorem member_deeper : ∃ member, ({} : TypeInfo).Promotes "Do" 1 deepFirst member ∧
    ({} : TypeInfo).member deepFirst "Do" ≠ some member := by
  refine ⟨_, promotes_deepFirst, fun same => ?_⟩
  rw [show ({} : TypeInfo).member deepFirst "Do" = some (.func ⟨[], [.error], false⟩) from rfl] at same
  cases same

end CheckHandle
