import CheckHandle.Proofs.Everywhere
import CheckHandle.Proofs.Fitting

/-!
# Laid out syntax

Syntax is laid out over a text when its nodes lie in the text, its statements in
the order of the text, and something is known of its names. The trees of a match
stand in a row, each in the shape that the pattern of its rule allows. A step of
the builder makes one out of the other, or reports a fault.
-/

namespace CheckHandle

open Text List

variable {α : Type} {Q : Nat → Nat → Tree → Prop} {r : Rule} {rs : List Rule} {fs : List (List Rule)}

/-! ## Syntax laid out over a text -/

mutual

/-- The term lies between two offsets, its parts one after the other, and
something is known of its names. Of a construct that a walk leaves alone nothing
else is asked. -/
inductive Term.Laid (P : Name → Prop) : Nat → Nat → Term → Prop
  | expr {lo hi listed kind info parts} : info.span.Between lo hi →
    Known P (kind.spelled (some info.span.start)) → TermsLaid P lo hi parts →
    Term.Laid P lo hi (.expr listed kind info parts)
  | group {lo hi kind info parts} : Known P (kind.spelled (infoStart? info)) →
    TermsLaid P lo hi parts → Term.Laid P lo hi (.group kind info parts)
  | fixed {lo hi kind info parts} : lo ≤ hi → Known P (Term.fixed kind info parts).spelled →
    Term.Laid P lo hi (.fixed kind info parts)
  | block {lo hi info ss} : StatementsLaid P lo hi ss → Term.Laid P lo hi (.block info ss)

inductive TermsLaid (P : Name → Prop) : Nat → Nat → List Term → Prop
  | nil {lo hi} : lo ≤ hi → TermsLaid P lo hi []
  | cons {lo mid hi t ts} : Term.Laid P lo mid t → TermsLaid P mid hi ts → TermsLaid P lo hi (t :: ts)

inductive StatementsLaid (P : Name → Prop) : Nat → Nat → List Statement → Prop
  | nil {lo hi} : lo ≤ hi → StatementsLaid P lo hi []
  | cons {lo mid hi kind info parts ss} : info.span.Between lo mid →
    Known P (kind.spelled (some info.span.start)) → TermsLaid P info.span.start mid parts →
    StatementsLaid P mid hi ss → StatementsLaid P lo hi (.mk kind info parts :: ss)

end

/-- The node lies in a text of this size. -/
def Info.Below (size : Nat) (i : Info) : Prop := i.span.start ≤ size ∧ i.span.stop ≤ size

/-- One after the other between two offsets. -/
inductive InRow {α : Type} (Q : Nat → Nat → α → Prop) : Nat → Nat → List α → Prop
  | nil {lo hi} : lo ≤ hi → InRow Q lo hi []
  | cons {lo mid hi a as} : Q lo mid a → InRow Q mid hi as → InRow Q lo hi (a :: as)

section Laid

variable {P : Name → Prop} {size lo lo' mid hi hi' : Nat} {span : Span} {x y : Expr} {t : Term}
  {ts : List Term} {ss : List Statement}

theorem Span.Between.below (h : span.Between lo hi) (upper : hi ≤ size) : span.start ≤ size ∧ span.stop ≤ size := by
  have := h.ordered
  have := h.upper
  omega

mutual

theorem Term.Laid.ascends : ∀ {lo hi : Nat} {t : Term}, t.Laid P lo hi → Ascends lo hi (starts [t])
  | _, _, _, .expr _ _ parts | _, _, _, .group _ parts => by simpa using parts.ascends
  | _, _, _, .fixed le _ => by simpa [starts_nil] using le
  | _, _, _, .block stmts => by simpa using stmts.ascends

theorem TermsLaid.ascends : ∀ {lo hi : Nat} {ts : List Term}, TermsLaid P lo hi ts → Ascends lo hi (starts ts)
  | _, _, _, .nil le => le
  | _, _, _, @TermsLaid.cons _ _ _ _ t ts first rest => by
    have append : starts (t :: ts) = starts [t] ++ starts ts := by cases t <;> simp
    rw [append]
    exact first.ascends.append rest.ascends

theorem StatementsLaid.ascends :
    ∀ {lo hi : Nat} {ss : List Statement}, StatementsLaid P lo hi ss → Ascends lo hi (startsIn ss)
  | _, _, _, .nil le => le
  | _, _, _, .cons span _ parts rest => by
    rw [startsIn_cons]
    exact ⟨span.lower, parts.ascends.append rest.ascends⟩

end

mutual

theorem Term.Laid.everywhere : ∀ {lo hi : Nat} {t : Term}, t.Laid P lo hi → hi ≤ size → t.Everywhere (Info.Below size)
  | _, _, _, .expr span _ parts, upper => (everywhere_expr ..).mpr ⟨span.below upper, parts.everywhere upper⟩
  | _, _, _, .group _ parts, upper => (everywhere_group ..).mpr (parts.everywhere upper)
  | _, _, _, .fixed .., _ => (everywhere_fixed ..).mpr trivial
  | _, _, _, .block stmts, upper => (everywhere_block ..).mpr (stmts.everywhere upper)

theorem TermsLaid.everywhere :
    ∀ {lo hi : Nat} {ts : List Term}, TermsLaid P lo hi ts → hi ≤ size → EverywhereTerms (Info.Below size) ts
  | _, _, _, .nil _, _ => everywhere_nil.mpr trivial
  | _, _, _, .cons first rest, upper => (everywhere_cons ..).mpr
    ⟨first.everywhere (rest.ascends.le.trans upper), rest.everywhere upper⟩

theorem StatementsLaid.everywhere : ∀ {lo hi : Nat} {ss : List Statement}, StatementsLaid P lo hi ss → hi ≤ size →
      EverywhereIn (Info.Below size) ss
  | _, _, _, .nil _, _ => everywhereIn_nil.mpr trivial
  | _, _, _, .cons span _ parts rest, upper =>
    have upper' := rest.ascends.le.trans upper
    (everywhereIn_cons ..).mpr ⟨span.below upper', parts.everywhere upper', rest.everywhere upper⟩

end

mutual

theorem Term.Laid.known : ∀ {lo hi : Nat} {t : Term}, t.Laid P lo hi → Known P t.spelled
  | _, _, _, .expr _ own parts | _, _, _, .group own parts => (known_append ..).mpr ⟨own, parts.known⟩
  | _, _, _, .fixed _ known => known
  | _, _, _, .block stmts => stmts.known

theorem TermsLaid.known : ∀ {lo hi : Nat} {ts : List Term}, TermsLaid P lo hi ts → Known P (spelledAll ts)
  | _, _, _, .nil _ => known_nil
  | _, _, _, .cons first rest => (known_append ..).mpr ⟨first.known, rest.known⟩

theorem StatementsLaid.known :
    ∀ {lo hi : Nat} {ss : List Statement}, StatementsLaid P lo hi ss → Known P (spelledStatements ss)
  | _, _, _, .nil _ => known_nil
  | _, _, _, .cons _ own parts rest =>
    (known_append ..).mpr ⟨(known_append ..).mpr ⟨own, parts.known⟩, rest.known⟩

end

theorem TermsLaid.le (h : TermsLaid P lo hi ts) : lo ≤ hi := h.ascends.le

mutual

theorem Term.Laid.mono : ∀ {lo hi lo' hi' : Nat} {t : Term}, t.Laid P lo hi → lo' ≤ lo → hi ≤ hi' → t.Laid P lo' hi'
  | _, _, _, _, _, .expr span own parts, hlo, hhi => .expr (span.mono hlo hhi) own (parts.mono hlo hhi)
  | _, _, _, _, _, .group own parts, hlo, hhi => .group own (parts.mono hlo hhi)
  | _, _, _, _, _, .fixed le known, hlo, hhi => .fixed (hlo.trans (le.trans hhi)) known
  | _, _, _, _, _, .block stmts, hlo, hhi => .block (stmts.mono hlo hhi)

theorem TermsLaid.mono : ∀ {lo hi lo' hi' : Nat} {ts : List Term}, TermsLaid P lo hi ts → lo' ≤ lo →
    hi ≤ hi' → TermsLaid P lo' hi' ts
  | _, _, _, _, _, .nil le, hlo, hhi => .nil (hlo.trans (le.trans hhi))
  | _, _, _, _, _, .cons first rest, hlo, hhi =>
    .cons (first.mono hlo .refl) (rest.mono .refl hhi)

theorem StatementsLaid.mono : ∀ {lo hi lo' hi' : Nat} {ss : List Statement}, StatementsLaid P lo hi ss →
    lo' ≤ lo → hi ≤ hi' → StatementsLaid P lo' hi' ss
  | _, _, _, _, _, .nil le, hlo, hhi => .nil (hlo.trans (le.trans hhi))
  | _, _, _, _, _, .cons span own parts rest, hlo, hhi =>
    .cons (span.mono hlo .refl) own parts (rest.mono .refl hhi)

end

/-- A selected name starts where what it is selected from starts. -/
def Expr.Aligned : Expr → Prop
  | .selector here (.ident i _) _ => here.span.start = i.span.start
  | _ => True

/-- The expression is laid out between two offsets. -/
structure Expr.Laid (P : Name → Prop) (lo hi : Nat) (x : Expr) : Prop where
  span : x.info.span.Between lo hi
  own : Known P (x.kind.spelled (some x.info.span.start))
  parts : TermsLaid P lo hi x.parts
  aligned : x.Aligned

theorem Expr.Laid.mono (h : x.Laid P lo hi) (hlo : lo' ≤ lo) (hhi : hi ≤ hi') : x.Laid P lo' hi' :=
  ⟨h.span.mono hlo hhi, h.own, h.parts.mono hlo hhi, h.aligned⟩

theorem Expr.Laid.term (h : x.Laid P lo hi) (listed : Bool) : (Term.expr listed x.kind x.info x.parts).Laid P lo hi :=
  .expr h.span h.own h.parts

theorem absent_laid : Term.absent.Laid P lo lo := .fixed .refl known_nil

/-- A statement that stands in a block, laid out between two offsets. -/
def Stmt.Laid (P : Name → Prop) (lo hi : Nat) (s : Stmt) : Prop :=
  s.info.span.Between lo hi ∧ TermsLaid P s.info.span.start hi s.parts

theorem Stmt.Laid.group {s : Stmt} (h : s.Laid P lo hi) : (stmtTerm? (some s)).Laid P lo hi :=
  .group (by rw [Stmt.kind_spelled]; exact known_nil) (h.2.mono h.1.lower .refl)

theorem InRow.forall {Q : α → Prop} {as : List α} (h : InRow (fun _ _ => Q) lo hi as) : ∀ a ∈ as, Q a := by
  induction h with
  | nil => exact nofun
  | cons first _ ih => exact forall_mem_cons.mpr ⟨first, ih⟩

theorem InRow.exprs {xs : List Expr} (h : InRow (Expr.Laid P) lo hi xs) (listed : Bool) :
    TermsLaid P lo hi (exprTerms listed xs) := by
  induction h with
  | nil le => exact .nil le
  | cons hx _ ih => exact .cons (hx.term listed) ih

theorem InRow.statements {ss : List Stmt} (h : InRow (Stmt.Laid P) lo hi ss) :
    StatementsLaid P lo hi (statements ss) := by
  induction h with
  | nil le => exact .nil le
  | cons hs _ ih => exact .cons hs.1 (by rw [Stmt.kind_spelled]; exact known_nil) hs.2 ih

/-- A list of expressions as a part. -/
theorem InRow.group {xs : List Expr} (h : InRow (Expr.Laid P) lo hi xs) (listed : Bool) :
    (Term.group .list none (exprTerms listed xs)).Laid P lo hi :=
  .group known_nil (h.exprs listed)

end Laid

/-! ## Steps of the builder -/

/-- What a step builds is such, or else the fault is. -/
def Build.Yields (E : Fault → Prop) {α : Type} (Q : α → Prop) (m : Build α) : Prop := ∀ n, match m n with
    | .ok (a, _) => Q a
    | .error e => E e

namespace Build

/-- What the builder has to say to a user. -/
def complaints : List String := ["mixed named and unnamed parameters", "invalid composite literal type",
    "range permits at most two iteration variables"]

end Build

/-- A fault of the user that building reports, in a text of this size. -/
structure Fault.Reported (size : Nat) (e : Fault) : Prop where
  span : e.span.Between 0 size
  cause : e.cause = .missingPackage ∨ ∃ message ∈ Build.complaints, e.cause = .unparsable message
  user : e.internal = false

namespace Build.Yields

variable {E E' : Fault → Prop} {β : Type} {Q Q' : α → Prop} {R : β → Prop} {m : Build α}

theorem pure {a : α} (h : Q a) : Yields E Q (pure a) := fun _ => h

theorem fail {e : Fault} (h : E e) : Yields E Q (throw e) := fun _ => h

theorem bind {f : α → Build β} (hm : Yields E Q m) (hf : ∀ a, Q a → Yields E R (f a)) : Yields E R (m >>= f) := by
  intro n
  have first := hm n
  change match Except.bind (m n) (fun p => f p.1 p.2) with
    | .ok (a, _) => R a
    | .error e => E e
  cases hrun : m n with
  | error e => exact (by simpa [hrun] using first : E e)
  | ok r => exact hf r.1 (by simpa [hrun] using first) r.2

theorem mono (h : Yields E Q m) (hE : ∀ e, E e → E' e) (hQ : ∀ a, Q a → Q' a) : Yields E' Q' m := by
  intro n
  have := h n
  cases hrun : m n with
  | error e => exact hE e (by simpa [hrun] using this)
  | ok r => exact hQ r.1 (by simpa [hrun] using this)

theorem ensures (h : Yields E Q m) : Ensures Q m := by
  intro n a n' hrun
  simpa [hrun] using h n

theorem info {span : Span} : Yields E (fun i => i.span = span) (Build.info span) := fun _ => rfl

theorem node {span : Span} {f : Info → α} (h : ∀ i, i.span = span → Q (f i)) :
    Yields E Q (Build.info span >>= fun i => Pure.pure (f i)) :=
  fun n => h ⟨n, span⟩ rfl

theorem draw {m : Fresh α} (h : ∀ n, Q (m n).1) : Yields E Q (Build.draw m) := fun n => h n

end Build.Yields

/-- A step over a text of this size builds something such, or reports a fault of the user. What is in
the result was at hand before, as counted by `base`, or is new, and then it is there once. -/
structure Build.AssemblesFrom (size : Nat) (base : NodeId → Nat) {α : Type} (c : NodeId → α → Nat) (Q : α → Prop)
    (m : Build α) : Prop where
  yields : Yields (Fault.Reported size) Q m
  builds : Builds base c m

/-- All that is in the result is new. -/
abbrev Build.Assembles (size : Nat) {α : Type} (c : NodeId → α → Nat) (Q : α → Prop) (m : Build α) : Prop :=
  AssemblesFrom size (fun _ => 0) c Q m

namespace Build.AssemblesFrom

variable {size : Nat} {base base' : NodeId → Nat} {β : Type} {c : NodeId → α → Nat} {d : NodeId → β → Nat}
  {Q Q' : α → Prop} {R : β → Prop} {m : Build α}

theorem pure {a : α} (h : Q a) (old : ∀ i, c i a ≤ base i) : AssemblesFrom size base c Q (pure a) :=
  ⟨.pure h, .pure old⟩

theorem fail {e : Fault} (h : e.Reported size) : AssemblesFrom size base c Q (throw e) := ⟨.fail h, .fail⟩

/-- A step that takes up `base` and leaves the rest. -/
theorem bindFrom (rest : NodeId → Nat) {f : α → Build β} (hm : AssemblesFrom size base c Q m)
    (hf : ∀ a, Q a → AssemblesFrom size (fun i => rest i + c i a) d R (f a)) (le : ∀ i, base i + rest i ≤ base' i) :
    AssemblesFrom size base' d R (m >>= f) where
  yields := hm.yields.bind fun a ha => (hf a ha).yields
  builds := by
    intro n b n' h i
    obtain ⟨a, n1, ha, hb⟩ := Builds.bind_ok h
    have h1 : c i a + spare n1 i ≤ base i + spare n i := hm.builds ha i
    have h2 : d i b + spare n' i ≤ rest i + c i a + spare n1 i := (hf a (hm.yields.ensures ha)).builds hb i
    have := le i
    omega

theorem bind {f : α → Build β} (hm : Assembles size c Q m)
    (hf : ∀ a, Q a → AssemblesFrom size (fun i => base i + c i a) d R (f a)) : AssemblesFrom size base d R (m >>= f) :=
  hm.bindFrom base hf fun _ => Nat.le_of_eq (Nat.zero_add _)

theorem mono (h : AssemblesFrom size base c Q m) (le : ∀ i, base i ≤ base' i) (hQ : ∀ a, Q a → Q' a) :
    AssemblesFrom size base' c Q' m :=
  ⟨h.yields.mono (fun _ => id) hQ, h.builds.mono le⟩

theorem imp (h : AssemblesFrom size base c Q m) (hQ : ∀ a, Q a → Q' a) : AssemblesFrom size base c Q' m :=
  h.mono (fun _ => .refl) hQ

/-- A step that goes on with what is built. -/
theorem andThen {f : α → Build β} (hm : AssemblesFrom size base c Q m)
    (hf : ∀ a, Q a → AssemblesFrom size (fun i => c i a) d R (f a)) : AssemblesFrom size base d R (m >>= f) :=
  hm.bindFrom (fun _ => 0) (fun a ha => (hf a ha).mono (fun _ => Nat.le_add_left _ _) fun _ => id) fun _ => .refl

theorem info {span : Span} : Assembles size Info.count (fun i => i.span = span) (Build.info span) :=
  ⟨.info, info_builds span⟩

theorem node {span : Span} {f : Info → α} (old : ∀ info i, c i (f info) ≤ base i + info.count i)
    (h : ∀ i, i.span = span → Q (f i)) : AssemblesFrom size base c Q (Build.info span >>= fun i => Pure.pure (f i)) :=
  .bind .info fun i hi => .pure (h i hi) (old i)

theorem draw {m : Fresh α} (new : Draws base c m) (h : ∀ n, Q (m n).1) : AssemblesFrom size base c Q (Build.draw m) :=
  ⟨.draw h, .draw new⟩

end Build.AssemblesFrom

open Build (Assembles AssemblesFrom Ensures Yields)

/-! ## Trees in a row -/

/-- The tree lies between two offsets of a text of this size, it has the shape of
its rule, and it is smaller than `k`. -/
structure Tree.Stands (P : Name → Prop) (size k lo hi : Nat) (t : Tree) : Prop where
  small : sizeOf t < k
  fits : t.Fits lo hi
  bears : t.Bears P
  upper : hi ≤ size

/-- Trees of these rules stand one after the other between two offsets. -/
inductive Row (Q : Nat → Nat → Tree → Prop) : Nat → Nat → List Rule → List Tree → Prop
  | nil {lo hi} : lo ≤ hi → Row Q lo hi [] []
  | cons {lo mid hi r start text children rs ts} : Q lo mid (.node r start text children) →
    Row Q mid hi rs ts → Row Q lo hi (r :: rs) (.node r start text children :: ts)

/-- Trees of one of these lists of rules stand in a row. -/
def AnyRow (Q : Nat → Nat → Tree → Prop) (lo hi : Nat) (ts : List Tree) : List (List Rule) → Prop
  | [] => False
  | [rs] => Row Q lo hi rs ts
  | rs :: fs => Row Q lo hi rs ts ∨ AnyRow Q lo hi ts fs

/-- The children that a tree of the rule may have, if nothing in it is repeated. -/
def Rule.shapes (r : Rule) : Option (List (List Rule)) :=
  if r.isToken then none else r.body.forms

section Row

variable {P : Name → Prop} {size k lo mid hi start : Nat} {rule : Rule} {text : List Char}
  {t : Tree} {children ts : List Tree}

theorem Row.none (row : Row Q lo hi [] ts) : lo ≤ hi ∧ ts = [] := by
  cases row with
  | nil le => exact ⟨le, rfl⟩

theorem anyRow_iff : AnyRow Q lo hi ts fs ↔ ∃ rs ∈ fs, Row Q lo hi rs ts := by
  induction fs with
  | nil => simp [AnyRow]
  | cons f fs ih =>
    cases fs with
    | nil => simp [AnyRow]
    | cons g fs =>
      change Row Q lo hi f ts ∨ AnyRow Q lo hi ts (g :: fs) ↔ _
      simp [ih]

theorem AnyRow.mono {gs : List (List Rule)} (rows : AnyRow Q lo hi ts fs) (sub : fs ⊆ gs) : AnyRow Q lo hi ts gs :=
  anyRow_iff.mpr ((anyRow_iff.mp rows).imp fun _ h => ⟨sub h.1, h.2⟩)

/-- The first tree may be left out. -/
theorem AnyRow.optional (rows : AnyRow Q lo hi ts (fs ++ fs.map (r :: ·))) :
    AnyRow Q lo hi ts fs ∨ ∃ mid start text children us, Q lo mid (.node r start text children) ∧
      AnyRow Q mid hi us fs ∧ ts = .node r start text children :: us := by
  obtain ⟨rs, mem, row⟩ := anyRow_iff.mp rows
  rcases mem_append.mp mem with mem | mem
  · exact .inl (anyRow_iff.mpr ⟨rs, mem, row⟩)
  · obtain ⟨rs', mem', rfl⟩ := mem_map.mp mem
    obtain _ | ⟨first, rest⟩ := row
    exact .inr ⟨_, _, _, _, _, first, anyRow_iff.mpr ⟨rs', mem', rest⟩, rfl⟩

theorem row_of_fits (fits : TreesFit lo hi ts) (bears : TreesBear P ts) (small : ∀ t ∈ ts, sizeOf t < k)
    (upper : hi ≤ size) : Row (Tree.Stands P size k) lo hi (ts.map Tree.rule) ts := by
  induction ts generalizing lo with
  | nil => exact .nil fits.le
  | cons t ts ih =>
    obtain ⟨mid, ht, hts⟩ := fits.head
    obtain ⟨small, rest⟩ := forall_mem_cons.mp small
    obtain ⟨rule, start, text, children⟩ := t
    exact .cons ⟨small, ht, bears.head.1, hts.le.trans upper⟩ (ih hts bears.head.2 rest)

namespace Tree.Stands

variable (h : (Tree.node rule start text children).Stands P size (k + 1) lo hi)

include h

theorem inside (token : rule.isToken = false) :
    ∃ rs, rule.body.Spells rs ∧ Row (Tree.Stands P size k) start hi rs children := by
  have bears := h.bears
  rw [Tree.Bears] at bears
  refine ⟨_, bears.2.2.2.1 token, row_of_fits (h.fits.inside.mono .refl h.fits.upper)
    bears.2.2.2.2 (fun t ht => ?_) h.upper⟩
  have := h.small
  have := sizeOf_lt_of_mem ht
  simp only [Tree.node.sizeOf_spec] at *
  omega

theorem rows (fs : List (List Rule)) (shapes : rule.shapes = some fs) :
    AnyRow (Tree.Stands P size k) start hi children fs := by
  unfold Rule.shapes at shapes
  split at shapes
  · cases shapes
  · rename_i token
    obtain ⟨rs, spells, row⟩ := h.inside (by simpa using token)
    exact anyRow_iff.mpr ⟨rs, spells.mem_forms shapes, row⟩

theorem row (rs : List Rule) (shapes : rule.shapes = some [rs]) : Row (Tree.Stands P size k) start hi rs children :=
  h.rows [rs] shapes

/-- All children are of the rules that the pattern names. -/
theorem each (ok : Rule → Bool) (token : rule.isToken = false)
    (all : ∀ r ∈ rule.body.rules, r.isSilent = false → ok r = true) :
    ∃ rs, (∀ r ∈ rs, ok r = true) ∧ Row (Tree.Stands P size k) start hi rs children := by
  obtain ⟨rs, spells, row⟩ := h.inside token
  exact ⟨rs, fun r hr => all r (spells.mem hr).1 (spells.mem hr).2, row⟩

/-- The only child of a tree. -/
theorem only (ok : Rule → Bool) (shapes : rule.shapes = some fs)
    (single : fs.all (fun | [r] => ok r | _ => false) = true) :
    ∃ t, children = [t] ∧ ok t.rule = true ∧ t.Stands P size k start hi := by
  obtain ⟨rs, mem, row⟩ := anyRow_iff.mp (h.rows fs shapes)
  have one := all_eq_true.mp single rs mem
  rcases rs with _ | ⟨r, _ | ⟨_, _⟩⟩
  · cases one
  · obtain _ | ⟨ht, le | _⟩ := row
    exact ⟨_, rfl, one, ht.small, ht.fits.mono .refl le, ht.bears, h.upper⟩
  · cases one

theorem span : (matchSpan start text).Between lo hi := h.fits.span

theorem span_inside : (matchSpan start text).Between start hi := ⟨.refl, h.span.ordered, h.span.upper⟩

theorem between : (matchSpan start text).Between 0 size := h.span.mono (Nat.zero_le _) h.upper

end Tree.Stands

theorem Row.le (row : Row Q lo hi rs ts) (le : ∀ {lo hi t}, Q lo hi t → lo ≤ hi) : lo ≤ hi := by
  induction row with
  | nil h => exact h
  | cons first _ ih => exact Nat.le_trans (le first) ih

theorem Tree.Stands.le (h : t.Stands P size k lo hi) : lo ≤ hi := h.fits.le

theorem Tree.Stands.weaken (h : t.Stands P size k lo hi) : t.Stands P size (k + 1) lo hi :=
  { h with small := Nat.lt_succ_of_lt h.small }

/-- The only child of a tree, where the tree lies. -/
theorem Tree.Stands.wrapped (h : (Tree.node rule start text children).Stands P size k lo hi) (ok : Rule → Bool)
    (shapes : rule.shapes = some fs) (single : fs.all (fun | [r] => ok r | _ => false) = true) :
    ∃ t, children = [t] ∧ ok t.rule = true ∧ t.Stands P size k lo hi := by
  obtain ⟨t, rfl, hok, ht⟩ := h.weaken.only ok shapes single
  exact ⟨t, rfl, hok, { ht with fits := ht.fits.mono h.fits.lower .refl }⟩

/-- The rules in their order, each of which may be left out. -/
def choices : List Rule → List (List Rule)
  | [] => [[]]
  | r :: rs => choices rs ++ (choices rs).map (r :: ·)

/-- A function that builds a part from the first tree, if the tree is there. -/
theorem assembles_optional {β : Type} {g : Tree → Build β} {f : Option β → List Tree → Build α}
    {L : Nat → Nat → Option β → Prop} {Q : α → Prop} {ok : Rule → Bool} {base : NodeId → Nat}
    {c : NodeId → α → Nat} {d : NodeId → Option β → Nat}
    (rows : AnyRow (Tree.Stands P size k) lo hi ts (choices (r :: rs))) (shapes : r.shapes = some fs)
    (single : fs.all (fun | [r] => ok r | _ => false) = true)
    (there : ∀ start text t us, f none (.node r start text [t] :: us) = g t >>= fun b => f (some b) us)
    (absent : ∀ {lo}, L lo lo none) (nothing : ∀ i, d i none = 0)
    (h : ∀ {lo mid t}, t.Stands P size k lo mid → ok t.rule = true →
      Assembles size (fun i b => d i (some b)) (L lo mid ∘ some) (g t))
    (next : ∀ {b mid us}, L lo mid b → AnyRow (Tree.Stands P size k) mid hi us (choices rs) →
      AssemblesFrom size (fun i => base i + d i b) c Q (f b us)) : AssemblesFrom size base c Q (f none ts) := by
  rcases AnyRow.optional rows with without | ⟨_, _, _, _, _, first, rest, rfl⟩
  · exact (next absent without).mono (fun i => by rw [nothing, Nat.add_zero]) fun _ => id
  · obtain ⟨t, rfl, hok, ht⟩ := first.wrapped ok shapes single
    rw [there]
    exact .bind (h ht hok) fun b hb => next hb rest

/-- A function that builds a list from one tree after the other. -/
theorem assembles_each {g : Tree → Build α} {f : List Tree → Build (List α)} {Q : Nat → Nat → α → Prop}
    {c : NodeId → α → Nat} {d : NodeId → List α → Nat} (nil : f [] = pure [])
    (cons : ∀ t ts, f (t :: ts) = g t >>= fun a => f ts >>= fun as => pure (a :: as))
    (none : ∀ i, d i [] = 0) (more : ∀ i a as, d i (a :: as) = c i a + d i as)
    (row : Row (Tree.Stands P size k) lo hi rs ts)
    (h : ∀ {lo mid t}, t.rule ∈ rs → t.Stands P size k lo mid → Assembles size c (Q lo mid) (g t)) :
    Assembles size d (InRow Q lo hi) (f ts) := by
  induction row with
  | nil le =>
    rw [nil]
    exact .pure (.nil le) fun i => Nat.le_of_eq (none i)
  | cons ht _ ih =>
    rw [cons]
    exact .bind (h mem_cons_self ht) fun a ha => .bind (ih fun hr => h (mem_cons_of_mem _ hr)) fun as has =>
      .pure (.cons ha has) fun i => by rw [more]; omega

end Row

end CheckHandle
