import Mathlib
import CheckHandle.Check.Naming

/-!
# When temporaries are told apart

A block numbers its temporaries for each type name apart, and writes the number
right behind the type name. So two names agree when one type name is the other
with digits behind it, and these digits stand in front of a number that the
other has reached. Main statement: this is the only way in which the names of a
block can agree.
-/

namespace CheckHandle

open Std List

namespace NamingScope

variable {scope : NamingScope} {a b : String} {k m n : Nat} {types : List String}

/-- The next number for a type name. -/
def upcoming (scope : NamingScope) (typeName : String) : Nat := scope.next.getD typeName 0

theorem upcoming_allocate (scope : NamingScope) (a b : String) :
    (scope.allocate a).2.upcoming b = scope.upcoming b + if a = b then 1 else 0 := by
  simp only [upcoming, allocate, TreeMap.getD_insert, Std.compare_eq_iff_eq]
  split
  · rename_i same
    rw [same]
  · rfl

/-- The type names with the numbers that they receive. -/
def numbered (scope : NamingScope) : List String → List (String × Nat)
  | [] => []
  | a :: types => (a, scope.upcoming a) :: (scope.allocate a).2.numbered types

theorem allocateAll_eq (scope : NamingScope) (types : List String) :
    (scope.allocateAll types).1 = (scope.numbered types).map fun p => temporaryName p.1 p.2 := by
  induction types generalizing scope with
  | nil => rfl
  | cons a types ih => exact congrArg (temporaryName a (scope.upcoming a) :: ·) (ih _)

/-- A type name receives one number for each time that it occurs, in turn. -/
theorem mem_numbered : (b, k) ∈ scope.numbered types ↔ scope.upcoming b ≤ k ∧ k < scope.upcoming b + types.count b := by
  induction types generalizing scope with
  | nil =>
    simp only [numbered, not_mem_nil, count_nil, false_iff]
    omega
  | cons a types ih =>
    rw [numbered, mem_cons, ih, upcoming_allocate, count_cons, Prod.mk.injEq]
    by_cases same : a = b
    · subst same
      simp only [true_and, beq_self_eq_true, ↓reduceIte]
      omega
    · simp [same, Ne.symm same]

theorem nodup_numbered (scope : NamingScope) (types : List String) : (scope.numbered types).Nodup := by
  induction types generalizing scope with
  | nil => exact nodup_nil
  | cons a types ih =>
    refine nodup_cons.mpr ⟨fun again => ?_, ih _⟩
    obtain ⟨least, -⟩ := mem_numbered.mp again
    rw [upcoming_allocate, if_pos rfl] at least
    omega

end NamingScope

/-! ## Names that agree -/

theorem toString_nat_inj {m n : Nat} (h : toString m = toString n) : m = n := by
  have digits : Nat.toDigits 10 m = Nat.toDigits 10 n := by
    simpa using congrArg String.toList h
  rw [← Nat.ofDigitChars_ten_toDigits (n := m), digits, Nat.ofDigitChars_ten_toDigits]

/-- Two temporaries have one name if the number of one starts with digits that
end the type name of the other. -/
theorem temporaryName_eq_iff {a b : String} {m n : Nat} : temporaryName a m = temporaryName b n ↔
    (∃ d, b = a ++ d ∧ toString m = d ++ toString n) ∨ ∃ d, a = b ++ d ∧ toString n = d ++ toString m := by
  have lists : temporaryName a m = temporaryName b n ↔
      a.toList ++ (toString m).toList = b.toList ++ (toString n).toList := by
    rw [temporaryName, temporaryName, ← String.toList_inj]
    simp only [String.toList_append, append_assoc, append_cancel_left_eq]
  rw [lists, append_eq_append_iff]
  constructor
  · rintro (⟨d, hb, hm⟩ | ⟨d, ha, hn⟩)
    · exact .inl ⟨String.ofList d, String.toList_inj.mp (by simpa using hb), String.toList_inj.mp (by simpa using hm)⟩
    · exact .inr ⟨String.ofList d, String.toList_inj.mp (by simpa using ha), String.toList_inj.mp (by simpa using hn)⟩
  · rintro (⟨d, rfl, hm⟩ | ⟨d, rfl, hn⟩)
    · exact .inl ⟨d.toList, String.toList_append, by rw [hm, String.toList_append]⟩
    · exact .inr ⟨d.toList, String.toList_append, by rw [hn, String.toList_append]⟩

/-- **Which temporaries of a block collide.** The names that a new scope gives
out are pairwise distinct if and only if, for every type name and every number
that it receives, cutting leading digits off the number and writing them behind
the type name gives no type name that receives what is left of the number. -/
theorem allocateAll_nodup_iff (types : List String) : (NamingScope.allocateAll {} types).1.Nodup ↔
      ∀ a m d n, m < types.count a → d ≠ "" → toString m = d ++ toString n → types.count (a ++ d) ≤ n := by
  have given : ∀ p, p ∈ NamingScope.numbered {} types ↔ p.2 < types.count p.1 := by
    intro p
    have none : NamingScope.upcoming {} p.1 = 0 := TreeMap.getD_emptyc
    rw [NamingScope.mem_numbered, none]
    omega
  rw [NamingScope.allocateAll_eq, nodup_map_iff_inj_on (NamingScope.nodup_numbered {} types)]
  constructor
  · intro distinct a m d n hm hd hdigits
    refine Nat.not_lt.mp fun hn => hd ?_
    have same := distinct (a, m) ((given _).mpr hm) (a ++ d, n) ((given _).mpr hn)
      (temporaryName_eq_iff.mpr (.inl ⟨d, rfl, hdigits⟩))
    have tail : a.toList ++ d.toList = a.toList := by
      rw [← String.toList_append, ← (Prod.mk.inj same).1]
    simpa using tail
  · intro apart
    -- The longer type name is the one with the shorter number.
    have longer : ∀ {a d m n}, m < types.count a → n < types.count (a ++ d) → toString m = d ++ toString n →
        (a, m) = (a ++ d, n) := by
      intro a d m n hm hn hdigits
      by_cases hd : d = ""
      · subst hd
        rw [String.empty_append] at hdigits
        rw [String.append_empty, toString_nat_inj hdigits]
      · exact absurd (apart a m d n hm hd hdigits) (Nat.not_le.mpr hn)
    rintro ⟨a, m⟩ hp ⟨b, n⟩ hq heq
    rw [given] at hp hq
    rcases temporaryName_eq_iff.mp heq with ⟨d, rfl, hdigits⟩ | ⟨d, rfl, hdigits⟩
    · exact longer hp hq hdigits
    · exact (longer hq hp hdigits).symm

/-- The eleventh temporary of type `T` has the name of the first one of type `T1`. -/
theorem temporaries_collide : ¬ (NamingScope.allocateAll {} (replicate 11 "T" ++ ["T1"])).1.Nodup := by
  rw [NamingScope.allocateAll_eq, nodup_map_iff_inj_on (NamingScope.nodup_numbered ..)]
  intro distinct
  have none : ∀ a, NamingScope.upcoming {} a = 0 := fun a => TreeMap.getD_emptyc
  have given : ∀ {a : String} {n : Nat}, n < (replicate 11 "T" ++ ["T1"]).count a →
      (a, n) ∈ NamingScope.numbered {} (replicate 11 "T" ++ ["T1"]) := by
    intro a n hn
    rw [NamingScope.mem_numbered, none]
    omega
  have same := distinct ("T", 10) (given (by decide)) ("T1", 0) (given (by decide)) (by decide)
  exact absurd (Prod.mk.inj same).2 (by decide)

end CheckHandle
