import Mathlib
import CheckHandle.Syntax.Builder
import CheckHandle.Syntax.Printer

/-!
# Grouping by operators

A sequence of operands with operators between them is grouped into a tree by the
strength of the operators. There is one tree in which a left side never binds
less strongly than its operator and a right side always binds more strongly:
that is the one which is built. Printing writes a tree as such a sequence, with
parentheses around the sides that would be grouped in another way.
-/

namespace CheckHandle

open List

variable {g : Grouping} {limit : Nat} {y : Expr}

/-- Operands under binary operators. -/
inductive Grouping where
  | operand (x : Expr)
  | node (op : BinaryOp) (left right : Grouping)

namespace Grouping

/-- The strength of the outermost operator; an operand is stronger than any. -/
def strength : Grouping → Nat
  | .operand _ => 6
  | .node op _ _ => op.precedence

def first : Grouping → Expr
  | .operand x => x
  | .node _ left _ => left.first

/-- The operators and operands after the first. -/
def rest : Grouping → List (BinaryOp × Expr)
  | .operand _ => []
  | .node op left right => left.rest ++ (op, right.first) :: right.rest

/-- No left side binds less strongly than its operator, and every right side
binds more strongly. -/
def Ordered : Grouping → Prop
  | .operand _ => True
  | .node op left right => op.precedence ≤ left.strength ∧ op.precedence < right.strength ∧ left.Ordered ∧ right.Ordered

/-- The binary nodes of an expression over what is not binary. -/
def ofExpr : Expr → Grouping
  | .binary _ op x y => .node op (ofExpr x) (ofExpr y)
  | x => .operand x

/-- The expression is built from the operands by nodes like these, each of which
spans its two sides. -/
def Builds : Grouping → Expr → Prop
  | .operand x, y => y = x
  | .node op left right, y => ∃ id a b, y = .binary ⟨id, a.info.span.start, b.info.span.stop⟩ op a b ∧
      left.Builds a ∧ right.Builds b

end Grouping

open Grouping

theorem BinaryOp.precedence_lt (op : BinaryOp) : 0 < op.precedence ∧ op.precedence < 6 := by cases op <;> decide

/-! ## One tree for a sequence -/

/-- The last operator of a sequence that is not stronger than any other one is
the outermost operator of its tree. -/
theorem Grouping.Ordered.weakest (h : g.Ordered) : ∀ p ∈ g.rest, g.strength ≤ p.1.precedence := by
  induction g with
  | operand x => exact nofun
  | node op left right ihl ihr =>
    obtain ⟨hl, hr, left, right⟩ := h
    intro p hp
    change op.precedence ≤ _
    rcases mem_append.mp hp with hp | hp
    · exact hl.trans (ihl left p hp)
    · rcases mem_cons.mp hp with rfl | hp
      · exact .refl
      · exact Nat.le_trans (Nat.le_of_lt hr) (ihr right p hp)

/-- A sequence splits in one way at the last of its weakest operators. -/
theorem split_unique {l l' r r' : List (BinaryOp × Expr)} {p p' : BinaryOp × Expr} (same : l ++ p :: r = l' ++ p' :: r')
    (hl : ∀ q ∈ l, p.1.precedence ≤ q.1.precedence) (hr : ∀ q ∈ r, p.1.precedence < q.1.precedence)
    (hl' : ∀ q ∈ l', p'.1.precedence ≤ q.1.precedence) (hr' : ∀ q ∈ r', p'.1.precedence < q.1.precedence) :
    l = l' ∧ p = p' ∧ r = r' := by
  rcases append_eq_append_iff.mp same with ⟨m, rfl, hm⟩ | ⟨m, rfl, hm⟩
  · cases m with
    | nil => simpa using hm
    | cons q m =>
      obtain ⟨rfl, rfl⟩ := List.cons.inj hm
      have := hr p' (by simp)
      have := hl' p (by simp)
      omega
  · cases m with
    | nil => simpa [eq_comm] using hm
    | cons q m =>
      obtain ⟨rfl, rfl⟩ := List.cons.inj hm
      have := hr' p (by simp)
      have := hl p' (by simp)
      omega

theorem Grouping.Ordered.unique {g' : Grouping} (h : g.Ordered) (h' : g'.Ordered) (first : g.first = g'.first)
    (rest : g.rest = g'.rest) : g = g' := by
  induction g generalizing g' with
  | operand x =>
    cases g' with
    | operand y => exact congrArg _ first
    | node => simp [Grouping.rest] at rest
  | node op left right ihl ihr =>
    cases g' with
    | operand y => simp [Grouping.rest] at rest
    | node op' left' right' =>
      obtain ⟨hl, hr, left, right⟩ := h
      obtain ⟨hl', hr', left', right'⟩ := h'
      obtain ⟨lefts, middle, rights⟩ := split_unique rest
        (fun q hq => hl.trans (left.weakest q hq)) (fun q hq => hr.trans_le (right.weakest q hq))
        (fun q hq => hl'.trans (left'.weakest q hq)) (fun q hq => hr'.trans_le (right'.weakest q hq))
      obtain ⟨rfl, firsts⟩ := Prod.mk.inj middle
      rw [ihl left left' first lefts, ihr right right' firsts rights]

/-! ## The tree that is built -/

/-- Groupings that wait for their right sides, the latest first, for these
expressions. Each is weaker than those after it, and than the right side `g`. -/
inductive Waits : Grouping → List (Grouping × BinaryOp) → List (Expr × BinaryOp) → Prop where
  | nil {g : Grouping} : Waits g [] []
  | cons {g left : Grouping} {op : BinaryOp} {gs : List (Grouping × BinaryOp)} {x : Expr} {xs : List (Expr × BinaryOp)}
      (builds : left.Builds x) (ordered : left.Ordered) (le : op.precedence ≤ left.strength)
      (lt : op.precedence < g.strength) (older : Waits (.node op left g) gs xs) : Waits g ((left, op) :: gs) ((x, op) :: xs)

/-- The tree of all that waits, with `g` as the last right side. -/
def Grouping.close (g : Grouping) : List (Grouping × BinaryOp) → Grouping
  | [] => g
  | (left, op) :: gs => (Grouping.node op left g).close gs

variable {g' : Grouping} {gs : List (Grouping × BinaryOp)} {xs : List (Expr × BinaryOp)}

theorem Grouping.close_extend (g g' : Grouping) (l : List (BinaryOp × Expr)) (first : g'.first = g.first)
    (rest : g'.rest = g.rest ++ l) :
    (g'.close gs).first = (g.close gs).first ∧ (g'.close gs).rest = (g.close gs).rest ++ l := by
  induction gs generalizing g g' with
  | nil => exact ⟨first, rest⟩
  | cons p gs ih => exact ih _ _ rfl (by simp [Grouping.rest, first, rest])

/-- What waits may wait for a stronger right side. -/
theorem Waits.mono (h : Waits g gs xs) (le : g.strength ≤ g'.strength) : Waits g' gs xs := by
  induction h generalizing g' with
  | nil => exact .nil
  | cons builds ordered hle lt _ ih => exact .cons builds ordered hle (lt.trans_le le) (ih .refl)

/-- Operators as strong as the limit are applied; the others can wait for any
right side that is as strong as the limit. -/
theorem reduceBinary_waits (h : Waits g gs xs) (builds : g.Builds y) (ordered : g.Ordered)
    (le : limit ≤ g.strength) (n : NodeId) : ∃ (g' : Grouping) (gs' : _),
      g'.Builds (reduceBinary limit y xs n).1.1 ∧ g'.Ordered ∧ limit ≤ g'.strength ∧ g'.close gs' = g.close gs ∧ (limit = 0 → gs' = []) ∧
      ∀ k : Grouping, limit ≤ k.strength → Waits k gs' (reduceBinary limit y xs n).1.2 := by
  induction h generalizing y n with
  | nil => exact ⟨_, [], builds, ordered, le, rfl, fun _ => rfl, fun _ _ => .nil⟩
  | cons hx hleft hle hlt older ih =>
    rw [reduceBinary]
    split
    · exact ih ⟨_, _, _, rfl, hx, builds⟩ ⟨hle, hlt, hleft, ordered⟩ ‹_› (n + 1)
    · rename_i weaker
      refine ⟨_, _, builds, ordered, le, rfl, fun zero => absurd (zero ▸ Nat.zero_le _) weaker, fun k hk => ?_⟩
      exact .cons hx hleft hle (Nat.lt_of_lt_of_le (Nat.lt_of_not_le weaker) hk) (older.mono .refl)

theorem foldBinary_waits (rest : List (BinaryOp × Expr)) (h : Waits (.operand y) gs xs) (n : NodeId) :
    ∃ g : Grouping, g.Builds (foldBinary xs y rest n).1 ∧ g.Ordered ∧
      g.first = ((Grouping.operand y).close gs).first ∧ g.rest = ((Grouping.operand y).close gs).rest ++ rest := by
  induction rest generalizing gs xs y n with
  | nil =>
    obtain ⟨g', gs', builds, ordered, -, closed, none, -⟩ := reduceBinary_waits h rfl trivial (Nat.zero_le _) n
    obtain rfl := none rfl
    exact ⟨g', builds, ordered, by rw [← closed]; rfl, by rw [← closed, append_nil]; rfl⟩
  | cons p rest ih =>
    obtain ⟨op, z⟩ := p
    have strong := Nat.le_of_lt op.precedence_lt.2
    obtain ⟨g', gs', builds, ordered, le, closed, -, waits⟩ := reduceBinary_waits h rfl trivial strong n
    have pushed : Waits (.operand z) ((g', op) :: gs') _ :=
      .cons builds ordered le op.precedence_lt.2 (waits (.node op g' (.operand z)) .refl)
    obtain ⟨g, built, whole, first, after⟩ := ih pushed _
    obtain ⟨first', after'⟩ := close_extend g' (.node op g' (.operand z)) [(op, z)] rfl rfl
    refine ⟨g, built, whole, first.trans (first'.trans (by rw [closed])), after.trans ?_⟩
    change ((Grouping.node op g' (.operand z)).close gs').rest ++ rest = _
    rw [after', closed, append_assoc]
    rfl

theorem foldBinary_builds (first : Expr) (rest : List (BinaryOp × Expr)) (n : NodeId) :
    ∃ g : Grouping, g.Builds (foldBinary [] first rest n).1 ∧ g.Ordered ∧ g.first = first ∧ g.rest = rest :=
  foldBinary_waits rest .nil n

/-! ## The sequence that is printed -/

/-- The text of a sequence of operands and operators. -/
def sequenceText (n : Nat) (first : Expr) : List (BinaryOp × Expr) → String
  | [] => first.render n
  | (op, y) :: rest => first.render n ++ " " ++ op.text ++ " " ++ sequenceText n y rest

theorem sequenceText_append (n : Nat) (x y : Expr) (op : BinaryOp) (l r : List (BinaryOp × Expr)) :
    sequenceText n x (l ++ (op, y) :: r) = sequenceText n x l ++ " " ++ op.text ++ " " ++ sequenceText n y r := by
  induction l generalizing x with
  | nil => rfl
  | cons p l ih => simp [sequenceText, ih, String.append_assoc]

namespace Expr

/-- The expression with parentheses around it, if needed. -/
def enclose (needed : Bool) (x : Expr) : Expr := if needed then .paren x.info x else x

/-- The tree with the parentheses that printing adds to its binary nodes. -/
def enclosed : Expr → Expr
  | .binary info op x y => .binary info op (enclose (x.bindsBelow op.precedence) x.enclosed)
      (enclose (y.bindsBelow (op.precedence + 1)) y.enclosed)
  | x => x

end Expr

theorem bindsBelow_eq (le : limit ≤ 6) (x : Expr) :
    x.bindsBelow limit = decide ((ofExpr x).strength < limit) := by
  cases x with
  | binary => rfl
  | _ => exact (decide_eq_false (Nat.not_lt.mpr le)).symm

/-- A side binds as strongly as the limit once it is enclosed. -/
theorem Grouping.strength_enclose (le : limit ≤ 6) (x : Expr) :
    limit ≤ (ofExpr (Expr.enclose (x.bindsBelow limit) x.enclosed)).strength := by
  unfold Expr.enclose
  split
  · exact le
  · rename_i strong
    cases x with
    | binary => simpa [Expr.bindsBelow, Expr.enclosed, ofExpr, strength] using strong
    | _ => exact le

theorem bindsBelow_enclose (le : limit ≤ 6) (x : Expr) :
    (Expr.enclose (x.bindsBelow limit) x.enclosed).bindsBelow limit = false := by
  rw [bindsBelow_eq le, decide_eq_false (Nat.not_lt.mpr (strength_enclose le x))]

theorem Grouping.ordered_enclose {needed : Bool} {x : Expr} (h : (ofExpr x).Ordered) :
    (ofExpr (Expr.enclose needed x)).Ordered := by
  cases needed with
  | true => trivial
  | false => exact h

theorem Grouping.ordered_enclosed (x : Expr) : (ofExpr x.enclosed).Ordered := by
  fun_induction Expr.enclosed x with
  | case1 info op x y ihx ihy =>
    have lt := op.precedence_lt.2
    exact ⟨strength_enclose (Nat.le_of_lt lt) x, strength_enclose lt y, ordered_enclose ihx, ordered_enclose ihy⟩
  | case2 x other => cases x <;> first | trivial | exact (other _ _ _ _ rfl).elim

theorem render_binary (info : Info) (op : BinaryOp) (x y : Expr) (n : Nat) : (Expr.binary info op x y).render n =
    parens (x.bindsBelow op.precedence) (x.render n) ++ " " ++ op.text ++ " "
      ++ parens (y.bindsBelow (op.precedence + 1)) (y.render n) := rfl

theorem render_enclose (needed : Bool) (x : Expr) (n : Nat) :
    (Expr.enclose needed x).render n = parens needed (x.render n) := by
  cases needed <;> rfl

/-- Printing adds no parentheses to those that it would add. -/
theorem render_enclosed (x : Expr) (n : Nat) : x.enclosed.render n = x.render n := by
  fun_induction Expr.enclosed x with
  | case1 info op x y ihx ihy =>
    have lt := op.precedence_lt.2
    rw [render_binary, render_binary, bindsBelow_enclose (Nat.le_of_lt lt), bindsBelow_enclose lt, render_enclose,
      render_enclose, ihx, ihy]
    rfl
  | case2 x other => rfl

/-- Without parentheses to add, the text is that of the sequence. -/
theorem render_ordered (n : Nat) (x : Expr) (h : (ofExpr x).Ordered) :
    x.render n = sequenceText n (ofExpr x).first (ofExpr x).rest := by
  fun_induction ofExpr x with
  | case1 info op x y ihx ihy =>
    obtain ⟨hl, hr, left, right⟩ := h
    have lt := op.precedence_lt.2
    rw [render_binary, bindsBelow_eq (Nat.le_of_lt lt), bindsBelow_eq lt, decide_eq_false (Nat.not_lt.mpr hl),
      decide_eq_false (Nat.not_lt.mpr hr), ihx left, ihy right]
    exact (sequenceText_append ..).symm
  | case2 x => rfl

/-- **Operators group and print consistently.** A sequence is grouped into the only
ordered tree with these operands and operators in this order. Any tree `x` is
printed as the sequence of its binary nodes, with each side in parentheses for
one operand, and that sequence is grouped into the tree with just these
parentheses. What stands in them is a tree that is printed in the same way. -/
theorem foldBinary_groups (first : Expr) (rest : List (BinaryOp × Expr)) (x : Expr) (n : NodeId) :
    (∃ g : Grouping, g.Builds (foldBinary [] first rest n).1 ∧ g.Ordered ∧ g.first = first ∧ g.rest = rest ∧
      ∀ g' : Grouping, g'.Ordered → g'.first = first → g'.rest = rest → g' = g) ∧
    (ofExpr x.enclosed).Builds (foldBinary [] (ofExpr x.enclosed).first (ofExpr x.enclosed).rest n).1 ∧
    ∀ depth, x.render depth = sequenceText depth (ofExpr x.enclosed).first (ofExpr x.enclosed).rest := by
  refine ⟨?_, ?_, fun depth => ?_⟩
  · obtain ⟨g, builds, ordered, hfirst, hrest⟩ := foldBinary_builds first rest n
    exact ⟨g, builds, ordered, hfirst, hrest, fun g' h first' rest' =>
      h.unique ordered (first'.trans hfirst.symm) (rest'.trans hrest.symm)⟩
  · obtain ⟨g, builds, ordered, hfirst, hrest⟩ := foldBinary_builds (ofExpr x.enclosed).first (ofExpr x.enclosed).rest n
    rw [ordered.unique (ordered_enclosed x) hfirst hrest] at builds
    exact builds
  · rw [← render_ordered depth _ (ordered_enclosed x), render_enclosed]

end CheckHandle
