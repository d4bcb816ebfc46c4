import CheckHandle.Proofs.Numbering

/-!
# Statements in source order

The statements of a file, as a walk comes to them, and the offsets at which they
start. In a file that is read they ascend.
-/

namespace CheckHandle

/-! ## Ascending offsets -/

/-- These offsets ascend, from `lo` on and up to `hi`. -/
def Ascends (lo hi : Nat) : List Nat → Prop
  | [] => lo ≤ hi
  | o :: os => lo ≤ o ∧ Ascends o hi os

@[simp] theorem ascends_nil {lo hi : Nat} : Ascends lo hi [] ↔ lo ≤ hi := Iff.rfl

namespace Ascends

variable {lo lo' mid hi hi' : Nat} {os ps : List Nat}

theorem le (h : Ascends lo hi os) : lo ≤ hi := by
  induction os generalizing lo with
  | nil => exact h
  | cons o os ih => exact h.1.trans (ih h.2)

theorem mono (h : Ascends lo hi os) (hlo : lo' ≤ lo) (hhi : hi ≤ hi') : Ascends lo' hi' os := by
  induction os generalizing lo lo' with
  | nil => exact hlo.trans (h.trans hhi)
  | cons o os ih => exact ⟨hlo.trans h.1, ih h.2 .refl⟩

theorem append (h : Ascends lo mid os) (h' : Ascends mid hi ps) : Ascends lo hi (os ++ ps) := by
  induction os generalizing lo with
  | nil => exact h'.mono h .refl
  | cons o os ih => exact ⟨h.1, ih h.2⟩

theorem lower_bound (h : Ascends lo hi os) {o : Nat} (ho : o ∈ os) : lo ≤ o := by
  induction os generalizing lo with
  | nil => cases ho
  | cons p os ih =>
    rcases List.mem_cons.mp ho with rfl | ho
    · exact h.1
    · exact h.1.trans (ih h.2 ho)

theorem pairwise (h : Ascends lo hi os) : os.Pairwise (· ≤ ·) := by
  induction os generalizing lo with
  | nil => exact .nil
  | cons o os ih => exact .cons (fun p hp => h.2.lower_bound hp) (ih h.2)

end Ascends

/-! ## Statements as a walk comes to them -/

mutual

/-- The statements in the blocks of a term, each before those inside it. -/
def Term.walked : Term → List Statement
  | .expr _ _ _ parts => walkedAll parts
  | .group _ _ parts => walkedAll parts
  | .fixed .. => []
  | .block _ ss => walkedIn ss

def walkedAll : List Term → List Statement
  | [] => []
  | t :: ts => t.walked ++ walkedAll ts

def walkedIn : List Statement → List Statement
  | [] => []
  | .mk kind info parts :: ss => .mk kind info parts :: (walkedAll parts ++ walkedIn ss)

end

def Statement.start (s : Statement) : Nat := s.info.span.start

/-- Where the statements in the blocks of these terms start. -/
def starts (ts : List Term) : List Nat := (walkedAll ts).map Statement.start

/-- Where these statements and those in their blocks start. -/
def startsIn (ss : List Statement) : List Nat := (walkedIn ss).map Statement.start

section Starts

variable (listed : Bool) (kind : Kind) (info : Info) (info? : Option Info) (parts ts : List Term) (ss : List Statement)

@[simp] theorem starts_nil : starts [] = [] := rfl

@[simp] theorem starts_expr : starts (.expr listed kind info parts :: ts) = starts parts ++ starts ts := by
  simp [starts, walkedAll, Term.walked]

@[simp] theorem starts_group : starts (.group kind info? parts :: ts) = starts parts ++ starts ts := by
  simp [starts, walkedAll, Term.walked]

@[simp] theorem starts_fixed : starts (.fixed kind info? parts :: ts) = starts ts := by
  simp [starts, walkedAll, Term.walked]

@[simp] theorem starts_block : starts (.block info ss :: ts) = startsIn ss ++ starts ts := by
  simp [starts, startsIn, walkedAll, Term.walked]

@[simp] theorem startsIn_cons :
    startsIn (.mk kind info parts :: ss) = info.span.start :: (starts parts ++ startsIn ss) := by
  simp [starts, startsIn, walkedIn, Statement.start, Statement.info]

end Starts

/-! ## What is built -/

/-- What a step builds, if it succeeds, is such. -/
def Build.Ensures {α : Type} (P : α → Prop) (m : Build α) : Prop := ∀ ⦃n a n'⦄, m n = .ok (a, n') → P a

namespace Build.Ensures

variable {α β : Type} {P P' : α → Prop} {Q : β → Prop}

theorem pure {a : α} (h : P a) : Ensures P (pure a) := by
  intro n b n' hb
  cases hb
  exact h

theorem fail {e : Fault} : Ensures P (throw e) := by
  intro n b n' hb
  cases hb

theorem bind {m : Build α} {f : α → Build β} (hm : Ensures P m) (hf : ∀ a, P a → Ensures Q (f a)) :
    Ensures Q (m >>= f) := by
  intro n b n' h
  obtain ⟨a, n1, ha, hb⟩ := Builds.bind_ok h
  exact hf a (hm ha) hb

theorem mono {m : Build α} (h : Ensures P m) (hP : ∀ a, P a → P' a) : Ensures P' m := fun _ a _ ha => hP a (h ha)

/-- Nothing is asked of what a step builds. -/
theorem any (m : Build α) : Ensures (fun _ => True) m := fun _ _ _ _ => trivial

end Build.Ensures

end CheckHandle
