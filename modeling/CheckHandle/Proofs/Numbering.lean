import CheckHandle.Package
import CheckHandle.Proofs.Fresh

/-!
# Nodes that are read

Reading a file draws identities from a counter. What a step of it builds is
counted: all of it was at hand before, or is new. Files of one package share the
counter.
-/

namespace CheckHandle

open List

variable {α β : Type}

attribute [local simp] countIdents

/-- What the result holds was at hand before, as counted by `base`, or is new;
and what is new stands there once. -/
def Builds (base : NodeId → Nat) (count : NodeId → α → Nat) (m : Build α) : Prop :=
  ∀ ⦃n a n'⦄, m n = .ok (a, n') → ∀ i, count i a + spare n' i ≤ base i + spare n i

/-- Everything in the result is new. -/
abbrev BuildsAll (count : NodeId → α → Nat) (m : Build α) : Prop := Builds (fun _ => 0) count m

namespace Builds

variable {base : NodeId → Nat} {count : NodeId → α → Nat}

theorem pure {a : α} (h : ∀ i, count i a ≤ base i) : Builds base count (pure a) := by
  intro n b n' hb i
  cases hb
  have := h i
  omega

theorem fail {e : Fault} : Builds base count (throw e) := by
  intro n b n' hb
  cases hb

theorem draw {m : Fresh α} (h : Draws base count m) : Builds base count (Build.draw m) := by
  intro n b n' hb i
  exact h (Except.ok.inj hb) i

theorem bind_ok {m : Build α} {f : α → Build β} {n n' : NodeId} {b : β}
    (h : (m >>= f) n = .ok (b, n')) : ∃ a n1, m n = .ok (a, n1) ∧ f a n1 = .ok (b, n') := by
  have step : (m >>= f) n = m n >>= fun r => f r.1 r.2 := rfl
  rw [step] at h
  obtain ⟨⟨a, n1⟩, ha, hb⟩ := ok_of_bind h
  exact ⟨a, n1, ha, hb⟩

theorem mono {m : Build α} {base' : NodeId → Nat} (h : Builds base count m)
    (le : ∀ i, base i ≤ base' i) : Builds base' count m := by
  intro n a n' ha i
  have := h ha i
  have := le i
  omega

end Builds

theorem info_builds (span : Span) : BuildsAll Info.count (Build.info span) := by
  intro n a n' h i
  cases h
  rw [Nat.zero_add]
  exact Nat.le_of_eq (spare_succ n i)

attribute [local grind =] Expr.count Info.count

/-! ## Parameters -/

def countIdent? (i : NodeId) : Option Ident → Nat
  | none => 0
  | some x => x.count i

def RawParam.count (i : NodeId) (p : RawParam) : Nat := countIdent? i p.name + p.ty.count i

def countRawParams (i : NodeId) : List RawParam → Nat
  | [] => 0
  | p :: ps => p.count i + countRawParams i ps

theorem countIdents_append (i : NodeId) (xs ys : List Ident) :
    countIdents i (xs ++ ys) = countIdents i xs + countIdents i ys := by
  induction xs with
  | nil => simp
  | cons x xs ih => simp [ih, Nat.add_assoc]

theorem countIdents_reverse (i : NodeId) (xs : List Ident) : countIdents i xs.reverse = countIdents i xs := by
  induction xs with
  | nil => rfl
  | cons x xs ih =>
    rw [reverse_cons, countIdents_append, ih]
    simp [Nat.add_comm]

/-! ## Operators -/

def countWaiting (i : NodeId) : List (Expr × BinaryOp) → Nat
  | [] => 0
  | (x, _) :: rest => x.count i + countWaiting i rest

def countOperations (i : NodeId) : List (BinaryOp × Expr) → Nat
  | [] => 0
  | (_, x) :: rest => x.count i + countOperations i rest

theorem freshId_draws : DrawsAll (fun i id => if id = i then 1 else 0) freshId := by
  rintro n a n' h i
  cases h
  rw [Nat.zero_add]
  exact Nat.le_of_eq (spare_succ n i)

theorem reduceBinary_draws (limit : Nat) (y : Expr) (waiting : List (Expr × BinaryOp)) :
    Draws (fun i => y.count i + countWaiting i waiting)
      (fun i r => r.1.count i + countWaiting i r.2) (reduceBinary limit y waiting) := by
  induction waiting generalizing y with
  | nil => exact .pure fun i => .refl
  | cons p waiting ih =>
    obtain ⟨x, op⟩ := p
    unfold reduceBinary
    split
    · refine .bind freshId_draws fun id => ?_
      intro n r n' h i
      have := ih _ h i
      simp only [Expr.count, Info.count, countWaiting] at this ⊢
      omega
    · exact .pure fun i => .refl

theorem foldBinary_draws (waiting : List (Expr × BinaryOp)) (y : Expr) (rest : List (BinaryOp × Expr)) :
    Draws (fun i => countWaiting i waiting + y.count i + countOperations i rest) Expr.count
      (foldBinary waiting y rest) := by
  induction rest generalizing waiting y with
  | nil =>
    unfold foldBinary
    intro n x n' h i
    rw [fresh_bind] at h
    obtain ⟨r, n1, hr, hx⟩ := h
    rw [fresh_pure] at hx
    obtain ⟨rfl, rfl⟩ := hx
    have := reduceBinary_draws 0 y waiting hr i
    simp only [countOperations] at this ⊢
    omega
  | cons p rest ih =>
    obtain ⟨op, z⟩ := p
    unfold foldBinary
    intro n x n' h i
    rw [fresh_bind] at h
    obtain ⟨⟨y', waiting'⟩, n1, hr, hx⟩ := h
    have h1 := reduceBinary_draws op.precedence y waiting hr i
    have h2 := ih ((y', op) :: waiting') z hx i
    simp only [countOperations, countWaiting] at h1 h2 ⊢
    omega

theorem applyUnary_draws (x : Expr) (ops : List (UnaryOp × Nat)) :
    Draws (fun i => x.count i) Expr.count (applyUnary x ops) := by
  induction ops with
  | nil => exact .pure fun i => .refl
  | cons op ops ih =>
    unfold applyUnary
    refine .andThen ih fun y => .bind freshId_draws fun id => .pure fun i => by grind

/-! ## Parts -/

def SliceBounds.count (i : NodeId) (b : SliceBounds) : Nat := countExpr? i b.lo + countExpr? i b.hi + countExpr? i b.max

def ForParts.count (i : NodeId) (p : ForParts) : Nat := countStmt? i p.init + countExpr? i p.test + countStmt? i p.post

def RangeParts.count (i : NodeId) (p : RangeParts) : Nat := countExpr? i p.key + countExpr? i p.value + p.x.count i

def FileParts.count (i : NodeId) (p : FileParts) : Nat :=
  countIdent? i p.package + countAll i (p.imports.map Import.term) + countAll i (p.decls.map TopDecl.term)

/-! ## Files and packages -/

/-- How often a node stands in the files. -/
def countFiles (i : NodeId) : List SourceFile → Nat
  | [] => 0
  | f :: fs => f.tree.term.count i + countFiles i fs

variable {input : SourceInput} {next next' : NodeId} {expected : Option String}
  {inputs : List SourceInput} {files : List SourceFile} {p : Package}

theorem readSource_eq {lowered : Option Lowered} (h : lowerInput input = .ok lowered)
    (next : NodeId) : readSource next input = match parseFile ((lowered.map Lowered.text).getD input.text) next with
      | .ok (tree, next) => .ok (⟨input.path, input.text, lowered, tree⟩, next)
      | .error fault => .error (Site.locate ⟨input.path, .parse, lowered.map Lowered.offsets⟩ fault) := by
  rw [readSource, h]
  cases lowered <;> rfl

theorem readSource_ok {file : SourceFile} (h : readSource next input = .ok (file, next')) :
    ∃ lowered tree, lowerInput input = .ok lowered ∧
      parseFile ((lowered.map Lowered.text).getD input.text) next = .ok (tree, next') ∧
      file = ⟨input.path, input.text, lowered, tree⟩ := by
  obtain ⟨lowered, hlowered, -⟩ := ok_of_bind h
  rw [readSource_eq hlowered] at h
  split at h
  · rename_i hparse
    cases h
    exact ⟨lowered, _, hlowered, hparse, rfl⟩
  · cases h

theorem readSources_cons (h : readSources expected next (input :: inputs) = .ok (files, next')) :
    ∃ file next1 expected' files', readSource next input = .ok (file, next1) ∧
      readSources expected' next1 inputs = .ok (files', next') ∧ files = file :: files' := by
  obtain ⟨⟨file, next1⟩, hfile, h⟩ := ok_of_bind h
  obtain ⟨-, -, h⟩ := ok_of_bind h
  obtain ⟨⟨files', next2⟩, hrest, h⟩ := ok_of_bind h
  cases h
  exact ⟨file, next1, _, files', hfile, hrest, rfl⟩

/-- Every file comes from one of the inputs. -/
theorem readSources_mem (h : readSources expected next inputs = .ok (files, next')) {f : SourceFile} (hf : f ∈ files) :
    ∃ input ∈ inputs, ∃ n n', readSource n input = .ok (f, n') := by
  induction inputs generalizing expected next files with
  | nil =>
    cases h
    cases hf
  | cons input inputs ih =>
    obtain ⟨file, next1, _, files', hfile, hrest, rfl⟩ := readSources_cons h
    rcases mem_cons.mp hf with rfl | hf
    · exact ⟨input, mem_cons_self, next, next1, hfile⟩
    · obtain ⟨input', hinput, hread⟩ := ih hrest hf
      exact ⟨input', mem_cons_of_mem _ hinput, hread⟩

theorem assemble_files (h : Package.assemble inputs = .ok p) : readSources none 0 inputs = .ok (p.files, p.nextId) := by
  obtain ⟨⟨files, nextId⟩, hfiles, h⟩ := ok_of_bind h
  rcases files with _ | ⟨first, rest⟩
  · cases h
  · cases h
    exact hfiles

end CheckHandle
