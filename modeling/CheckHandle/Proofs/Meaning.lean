import CheckHandle.Proofs.Relabel
import CheckHandle.Proofs.Standing

/-!
# What names mean

The scoping rules of the host language, for one name at a time. A block, the
header of a statement and a function open scopes. A declaration holds from the
end of its statement to the end of its scope; a short definition declares only
what its scope does not hold yet. What a name means at a point is told by the
identity of the declared identifier. A name that is not declared inside the
function belongs to the package or the universe, where no pass declares
anything.
-/

namespace CheckHandle

open List

variable {x : String} {m : Meaning} {d : Declaration}

/-- What a name means at some point. -/
structure View where
  /-- The identifier that declares it, if that stands in the function. -/
  decl : Option NodeId
  /-- It is declared in the innermost scope. -/
  inner : Bool
deriving DecidableEq

structure Declaration where
  /-- It stands in a short definition. -/
  short : Bool
  id : NodeId
deriving DecidableEq

namespace View

/-- In a new scope. -/
def enter (v : View) : View := ⟨v.decl, false⟩

def declare (v : View) (d : Declaration) : View :=
  if d.short && v.inner then v else ⟨some d.id, true⟩

def after (v : View) (ds : List Declaration) : View := ds.foldl declare v

end View

/-- The identity of a term that is the name `x`. -/
def Term.named? (x : String) : Term → Option NodeId
  | .expr _ (.ident name) info _ => if name == x then some info.id else none
  | .fixed (.name name) (some info) _ => if name == x then some info.id else none
  | _ => none

theorem Term.named?_expr (x : String) (listed : Bool) (kind : Kind) (info : Info)
    (parts parts' : List Term) : (Term.expr listed kind info parts).named? x
      = (Term.expr listed kind info parts').named? x := by
  cases kind <;> rfl

/-- What the parts of a construct declare holds after it. -/
def Kind.exports : Kind → Bool
  | .assign _ | .declStmt | .vars | .consts | .valueSpec | .types | .typeSpec _ | .signature | .fields
  | .field .. => true
  | _ => false

mutual

/-- How a term declares `x` in the scope that it stands in. -/
def Term.declared (x : String) : Term → List Declaration
  | .expr .. => []
  | .group kind _ parts =>
    if kind = .targets then (parts.filterMap (Term.named? x)).map (⟨true, ·⟩)
    else if kind.exports then declaredAll x parts else []
  | .fixed kind _ parts =>
    if kind = .names then (parts.filterMap (Term.named? x)).map (⟨false, ·⟩)
    else if kind.exports then declaredAll x parts else []
  | .block .. => []

def declaredAll (x : String) : List Term → List Declaration
  | [] => []
  | t :: ts => t.declared x ++ declaredAll x ts

end

def Statement.declared (x : String) (s : Statement) : List Declaration :=
  if s.kind.exports then declaredAll x s.parts else []

def declaredIn (x : String) (ss : List Statement) : List Declaration := ss.flatMap (Statement.declared x)

/-- How the parts of a construct see a name. -/
structure Plan where
  view : View
  /-- Each part sees what the parts before it declare. -/
  inTurn : Bool := false
  /-- Blocks are bodies, which have this view. -/
  body : Option View := none
  /-- The name itself is declared here and not used. -/
  skip : Bool := false

def Plan.next (p : Plan) (ds : List Declaration) : Plan :=
  if p.inTurn then { p with view := p.view.after ds } else p

/-- The view of the parts of a construct that is seen from `v`. -/
def Kind.plan (x : String) (kind : Kind) (parts : List Term) (v : View) : Plan :=
  match kind with
  | .cond | .loop | .switch => { view := v.enter, inTurn := true }
  -- the variables of a loop have a scope around its body
  | .range _ => { view := v.enter, body := some (v.enter.after (declaredAll x parts)).enter }
  -- parameters and the statements of the body are in one scope
  | .func | .funcLit => { view := v, body := some (v.enter.after (declaredAll x parts)) }
  | .targets => { view := v, skip := !v.inner }
  | .assign _ | .valueSpec | .signature | .fields | .field .. | .struct | .interface | .decls =>
    { view := v }
  | _ => { view := v, inTurn := true }

/-- The construct is a use of the name `x`. So is every key of a literal that is a
name, also where it names a field. -/
def Kind.uses (x : String) : Kind → Bool
  | .ident y => y == x
  | .typeName package y => package.getD y == x
  | _ => false

/-- What a name means at one node. -/
inductive Meaning where
  /-- An identifier that is the name. -/
  | use (id : NodeId) (decl : Option NodeId)
  /-- A statement of a block. -/
  | stmt (id : NodeId) (decl : Option NodeId)
deriving DecidableEq

def useMeaning (x : String) (kind : Kind) (info : Option Info) (v : View) : List Meaning :=
  match info with
  | some info => if kind.uses x then [.use info.id v.decl] else []
  | none => []

mutual

/-- What `x` means at its uses and at the statements in a term. -/
def Term.meanings (x : String) (v : View) (body : Option View) : Term → List Meaning
  | .expr _ kind info parts =>
    useMeaning x kind info v ++ meaningsAll x (kind.plan x parts v.enter) parts
  | .group kind _ parts => meaningsAll x (kind.plan x parts v) parts
  | .fixed kind info parts =>
    useMeaning x kind info v ++ meaningsAll x (kind.plan x parts v) parts
  | .block _ ss => meaningsIn x (body.getD v.enter) ss

def meaningsAll (x : String) (p : Plan) : List Term → List Meaning
  | [] => []
  | t :: ts =>
    (if p.skip && (t.named? x).isSome then [] else t.meanings x p.view p.body)
      ++ meaningsAll x (p.next (t.declared x)) ts

def meaningsIn (x : String) (v : View) : List Statement → List Meaning
  | [] => []
  | .mk kind info parts :: ss =>
    .stmt info.id v.decl :: meaningsAll x (kind.plan x parts v) parts
      ++ meaningsIn x (v.after (Statement.declared x (.mk kind info parts))) ss

end

/-- What `x` means in a file. -/
def File.meanings (x : String) (f : File) : List Meaning := f.term.meanings x ⟨none, false⟩ none

/-! ## Parts one after the other -/

theorem View.after_append (v : View) (ds es : List Declaration) : v.after (ds ++ es) = (v.after ds).after es :=
  foldl_append

theorem Plan.next_nil (p : Plan) : p.next [] = p := by
  unfold Plan.next
  split <;> rfl

theorem Plan.next_append (p : Plan) (ds es : List Declaration) : p.next (ds ++ es) = (p.next ds).next es := by
  unfold Plan.next
  cases h : p.inTurn <;> simp [h, View.after_append]

theorem declaredAll_append (x : String) (ts us : List Term) :
    declaredAll x (ts ++ us) = declaredAll x ts ++ declaredAll x us :=
  append_of_cons rfl (fun _ _ => by simp [declaredAll]) ts us

theorem declaredIn_append (x : String) (ss ts : List Statement) :
    declaredIn x (ss ++ ts) = declaredIn x ss ++ declaredIn x ts :=
  flatMap_append

theorem meaningsAll_append (x : String) (p : Plan) (ts us : List Term) : meaningsAll x p (ts ++ us)
      = meaningsAll x p ts ++ meaningsAll x (p.next (declaredAll x ts)) us := by
  induction ts generalizing p with
  | nil => simp [meaningsAll, declaredAll, Plan.next_nil]
  | cons t ts ih => simp [meaningsAll, declaredAll, ih, Plan.next_append]

theorem meaningsAll_cons (x : String) (p : Plan) (t : Term) (ts : List Term) : meaningsAll x p (t :: ts)
      = meaningsAll x p [t] ++ meaningsAll x (p.next (t.declared x)) ts := by
  simp [meaningsAll]

theorem meaningsIn_append (x : String) (v : View) (ss ts : List Statement) :
    meaningsIn x v (ss ++ ts) = meaningsIn x v ss
      ++ meaningsIn x (v.after (declaredIn x ss)) ts := by
  induction ss generalizing v with
  | nil => simp [meaningsIn, declaredIn, View.after]
  | cons s ss ih =>
    obtain ⟨kind, info, parts⟩ := s
    simp [meaningsIn, declaredIn, ih, View.after_append]

/-! ## Nodes -/

def Meaning.node : Meaning → NodeId
  | .use id _ | .stmt id _ => id

def Meaning.decl : Meaning → Option NodeId
  | .use _ decl | .stmt _ decl => decl

/-- How often a node is one of these. -/
def countMeanings (i : NodeId) (ms : List Meaning) : Nat := (ms.map fun m => if m.node = i then 1 else 0).sum

theorem countMeanings_append (i : NodeId) (ms ns : List Meaning) :
    countMeanings i (ms ++ ns) = countMeanings i ms + countMeanings i ns := by
  simp [countMeanings]

theorem countMeanings_use_le (x : String) (kind : Kind) (info : Option Info) (v : View)
    (i : NodeId) : countMeanings i (useMeaning x kind info v) ≤ countInfo? i info := by
  unfold useMeaning
  split
  · split
    · exact .refl
    · exact Nat.zero_le _
  · exact Nat.zero_le _

mutual

theorem Term.countMeanings_le (x : String) (i : NodeId) : ∀ (t : Term) (v : View)
    (b : Option View), countMeanings i (t.meanings x v b) ≤ t.count i
  | .expr _ kind info parts, v, b | .fixed kind (some info) parts, v, b => by
    have := countMeanings_use_le x kind info v i
    have := countMeanings_le_terms x i parts (kind.plan x parts v)
    have := countMeanings_le_terms x i parts (kind.plan x parts v.enter)
    simp only [Term.meanings, countMeanings_append, Term.count, countInfo?] at *
    omega
  | .fixed kind none parts, v, b => by
    have := countMeanings_le_terms x i parts (kind.plan x parts v)
    simp only [Term.meanings, useMeaning, nil_append, Term.count]
    omega
  | .group kind info parts, v, b => by
    have := countMeanings_le_terms x i parts (kind.plan x parts v)
    simp only [Term.meanings, Term.count]
    omega
  | .block info ss, v, b => by
    have := countMeanings_le_statements x i ss (b.getD v.enter)
    simp only [Term.meanings, Term.count]
    omega

theorem countMeanings_le_terms (x : String) (i : NodeId) : ∀ (ts : List Term) (p : Plan),
    countMeanings i (meaningsAll x p ts) ≤ countAll i ts
  | [], p => Nat.zero_le _
  | t :: ts, p => by
    have := t.countMeanings_le x i p.view p.body
    have := countMeanings_le_terms x i ts (p.next (t.declared x))
    simp only [meaningsAll, countMeanings_append, countAll]
    split
    · exact Nat.le_trans (Nat.add_le_add (Nat.zero_le _) this) .refl
    · omega

theorem countMeanings_le_statements (x : String) (i : NodeId) : ∀ (ss : List Statement) (v : View),
    countMeanings i (meaningsIn x v ss) ≤ countIn i ss
  | [], v => Nat.zero_le _
  | .mk kind info parts :: ss, v => by
    have := countMeanings_le_terms x i parts (kind.plan x parts v)
    have := countMeanings_le_statements x i ss (v.after (Statement.declared x (.mk kind info parts)))
    have hself : countMeanings i [.stmt info.id v.decl] = info.count i := rfl
    rw [meaningsIn, ← singleton_append, countMeanings_append, countMeanings_append, countIn]
    omega

end

section Node

variable {v : View} {b : Option View}

theorem countMeanings_pos {ms : List Meaning} (h : m ∈ ms) : 0 < countMeanings m.node ms :=
  List.sum_pos_iff_exists_pos_nat.mpr ⟨_, mem_map_of_mem h, by simp⟩

theorem useMeaning_node {kind : Kind} {info : Option Info} (h : m ∈ useMeaning x kind info v) :
    0 < countInfo? m.node info :=
  (countMeanings_pos h).trans_le (countMeanings_use_le ..)

theorem Term.meanings_node {t : Term} (h : m ∈ t.meanings x v b) : 0 < t.count m.node :=
  (countMeanings_pos h).trans_le (t.countMeanings_le ..)

theorem meaningsAll_node {ts : List Term} {p : Plan} (h : m ∈ meaningsAll x p ts) : 0 < countAll m.node ts :=
  (countMeanings_pos h).trans_le (countMeanings_le_terms ..)

theorem meaningsIn_node {ss : List Statement} (h : m ∈ meaningsIn x v ss) :
    0 < countIn m.node ss :=
  (countMeanings_pos h).trans_le (countMeanings_le_statements ..)

end Node

theorem Term.count_pos_of_named? {t : Term} {i : NodeId} (h : t.named? x = some i) : 0 < t.count i := by
  unfold Term.named? at h
  split at h
  · split at h
    · cases h
      exact Nat.add_pos_left (Info.count_self_pos _) _
    · cases h
  · split at h
    · cases h
      exact Nat.add_pos_left (Info.count_self_pos _) _
    · cases h
  · cases h

theorem countAll_pos_of_named? {short : Bool} {ts : List Term}
    (h : d ∈ (ts.filterMap (Term.named? x)).map (⟨short, ·⟩)) : 0 < countAll d.id ts := by
  obtain ⟨i, hi, rfl⟩ := mem_map.mp h
  obtain ⟨t, ht, hnamed⟩ := mem_filterMap.mp hi
  have := t.count_pos_of_named? hnamed
  clear h hi
  induction ts with
  | nil => cases ht
  | cons u ts ih =>
    rw [countAll]
    rcases mem_cons.mp ht with rfl | ht
    · exact Nat.add_pos_left this _
    · exact Nat.add_pos_right _ (ih ht)

mutual

/-- A declaration is a node of the term. -/
theorem Term.declared_node : ∀ {t : Term}, d ∈ t.declared x → 0 < t.count d.id
  | .expr .., h => by simp [Term.declared] at h
  | .group kind info parts, h | .fixed kind info parts, h => by
    rw [Term.declared] at h
    refine Nat.add_pos_right _ ?_
    split at h
    · exact countAll_pos_of_named? h
    · split at h
      · exact declaredAll_node h
      · cases h
  | .block .., h => by simp [Term.declared] at h

theorem declaredAll_node : ∀ {ts : List Term}, d ∈ declaredAll x ts → 0 < countAll d.id ts
  | [], h => by simp [declaredAll] at h
  | t :: ts, h => by
    rw [declaredAll, mem_append] at h
    rw [countAll]
    rcases h with h | h
    · exact Nat.add_pos_left (Term.declared_node h) _
    · exact Nat.add_pos_right _ (declaredAll_node h)

end

theorem Statement.declared_node {s : Statement} (h : d ∈ s.declared x) : 0 < countAll d.id s.parts := by
  unfold Statement.declared at h
  split at h
  · exact declaredAll_node h
  · cases h

/-- After declarations a name means what it meant before, or one of them. -/
theorem View.after_decl (v : View) (ds : List Declaration) :
    (v.after ds).decl = v.decl ∨ ∃ d ∈ ds, (v.after ds).decl = some d.id := by
  induction ds generalizing v with
  | nil => exact .inl rfl
  | cons d ds ih =>
    show ((v.declare d).after ds).decl = _ ∨ ∃ e ∈ _, ((v.declare d).after ds).decl = _
    rcases ih (v.declare d) with h | ⟨e, he, h⟩
    · rw [h]
      unfold View.declare
      split
      · exact .inl rfl
      · exact .inr ⟨d, mem_cons_self, rfl⟩
    · exact .inr ⟨e, mem_cons_of_mem _ he, h⟩

/-- A name means one thing at a node. -/
theorem Term.meaning_unique {t : Term} (h : ∀ i, t.count i ≤ 1) {v : View} {b : Option View} {m' : Meaning}
    (hm : m ∈ t.meanings x v b) (hm' : m' ∈ t.meanings x v b) (hnode : m'.node = m.node) : m' = m := by
  refine eq_of_sum_le_one _ (Nat.le_trans (t.countMeanings_le x m.node v b) (h _)) hm' hm ?_ ?_
  · simp [hnode]
  · simp

/-! ## Relabelled views and meanings -/

def Declaration.relabel (φ : NodeId → NodeId) (d : Declaration) : Declaration := ⟨d.short, φ d.id⟩

/-- The view in which a name means `ρ r` for `r`. -/
def View.carry (ρ : Option NodeId → Option NodeId) (v : View) : View := ⟨ρ v.decl, v.inner⟩

def Plan.carry (ρ : Option NodeId → Option NodeId) (p : Plan) : Plan :=
  { p with view := p.view.carry ρ, body := p.body.map (View.carry ρ) }

def Meaning.carry (φ : NodeId → NodeId) (ρ : Option NodeId → Option NodeId) : Meaning → Meaning
  | .use id decl => .use (φ id) (ρ decl)
  | .stmt id decl => .stmt (φ id) (ρ decl)

section Relabel

variable {g : String → String} {φ : NodeId → NodeId}

theorem Term.named?_relabel (keeps : ∀ y, g y = x ↔ y = x) (t : Term) :
    (t.relabel φ g).named? x = (t.named? x).map φ := by
  cases t with
  | expr listed kind info parts =>
    rw [Term.relabel]
    cases kind with
    | ident y =>
      simp only [Kind.relabel, Term.named?, beq_iff_eq, keeps y]
      split <;> rfl
    | _ => rfl
  | fixed kind info parts =>
    rw [Term.relabel]
    cases kind with
    | name y =>
      cases info with
      | none => rfl
      | some info =>
        simp only [Option.map_some, Term.named?]
        split <;> rfl
    | _ => rfl
  | group | block => simp only [Term.relabel, Term.named?, Option.map_none]

theorem filterMap_named?_relabel (keeps : ∀ y, g y = x ↔ y = x) (ts : List Term) :
    (relabelAll φ g ts).filterMap (Term.named? x) = (ts.filterMap (Term.named? x)).map φ := by
  induction ts with
  | nil =>
    rw [relabelAll]
    rfl
  | cons t ts ih =>
    rw [relabelAll, filterMap_cons, filterMap_cons, t.named?_relabel keeps, ih]
    cases t.named? x <;> rfl

mutual

theorem Term.declared_relabel {g : String → String} (keeps : ∀ y, g y = x ↔ y = x) : ∀ t : Term,
    (t.relabel φ g).declared x = (t.declared x).map (Declaration.relabel φ)
  | .expr .. => by simp only [Term.relabel, Term.declared, map_nil]
  | .group kind info parts => by
    simp only [Term.relabel, Term.declared, filterMap_named?_relabel keeps, declaredAll_relabel keeps parts]
    split
    · rw [map_map, map_map]
      rfl
    · split <;> rfl
  | .fixed kind info parts => by
    have same : ∀ y, id y = x ↔ y = x := fun _ => .rfl
    simp only [Term.relabel, Term.declared, filterMap_named?_relabel same, declaredAll_relabel same parts]
    split
    · rw [map_map, map_map]
      rfl
    · split <;> rfl
  | .block .. => by simp only [Term.relabel, Term.declared, map_nil]

theorem declaredAll_relabel {g : String → String} (keeps : ∀ y, g y = x ↔ y = x) : ∀ ts : List Term,
    declaredAll x (relabelAll φ g ts) = (declaredAll x ts).map (Declaration.relabel φ)
  | [] => by rw [relabelAll, declaredAll, map_nil]
  | t :: ts => by
    rw [relabelAll, declaredAll, t.declared_relabel keeps, declaredAll_relabel keeps ts,
      declaredAll, map_append]

end

theorem Statement.declared_relabel (keeps : ∀ y, g y = x ↔ y = x) (kind : Kind) (info : Info) (parts : List Term) :
    Statement.declared x (.mk kind (info.relabel φ) (relabelAll φ g parts))
      = (Statement.declared x (.mk kind info parts)).map (Declaration.relabel φ) := by
  show (if kind.exports then declaredAll x (relabelAll φ g parts) else [])
    = (if kind.exports then declaredAll x parts else []).map _
  rw [declaredAll_relabel keeps]
  by_cases exports : kind.exports
  · rw [if_pos exports, if_pos exports]
  · rw [if_neg exports, if_neg exports, map_nil]

theorem declaredIn_relabel (keeps : ∀ y, g y = x ↔ y = x)
    (ss : List Statement) : declaredIn x (relabelIn φ g ss)
      = (declaredIn x ss).map (Declaration.relabel φ) := by
  induction ss with
  | nil =>
    rw [relabelIn]
    rfl
  | cons s ss ih =>
    obtain ⟨kind, info, parts⟩ := s
    simp only [declaredIn] at ih
    simp only [relabelIn, declaredIn, flatMap_cons, map_append, Statement.declared_relabel keeps, ih]

theorem Kind.uses_relabel (keeps : ∀ y, g y = x ↔ y = x) (kind : Kind) : (kind.relabel g).uses x = kind.uses x := by
  cases kind with
  | ident y =>
    rw [Kind.relabel, Kind.uses, Kind.uses, Bool.eq_iff_iff, beq_iff_eq, beq_iff_eq]
    exact keeps y
  | _ => rfl

theorem Kind.plan_relabel (g : String → String) (kind : Kind) (parts : List Term) (v : View) :
    (kind.relabel g).plan x parts v = kind.plan x parts v := by
  cases kind <;> rfl

end Relabel

/-! ## Views from elsewhere -/

section Carry

variable {ds : List Declaration} {φ : NodeId → NodeId} {ρ : Option NodeId → Option NodeId}

theorem View.carry_enter (v : View) : (v.carry ρ).enter = v.enter.carry ρ := rfl

theorem View.carry_after (h : ∀ d ∈ ds, ρ (some d.id) = some (φ d.id)) (v : View) :
    (v.carry ρ).after (ds.map (Declaration.relabel φ)) = (v.after ds).carry ρ := by
  induction ds generalizing v with
  | nil => rfl
  | cons d ds ih =>
    obtain ⟨hd, hds⟩ := forall_mem_cons.mp h
    show ((v.carry ρ).declare (d.relabel φ)).after _ = ((v.declare d).after ds).carry ρ
    rw [← ih hds]
    congr 1
    unfold View.declare Declaration.relabel View.carry
    split
    · rfl
    · rw [hd]

theorem Plan.carry_next (h : ∀ d ∈ ds, ρ (some d.id) = some (φ d.id)) (p : Plan) :
    (p.carry ρ).next (ds.map (Declaration.relabel φ)) = (p.next ds).carry ρ := by
  have after := View.carry_after h p.view
  unfold Plan.next
  cases hturn : p.inTurn
  · simp [Plan.carry, hturn]
  · simp [Plan.carry, hturn, after]

theorem Kind.plan_carry (kind : Kind) {parts parts' : List Term}
    (hparts : declaredAll x parts' = (declaredAll x parts).map (Declaration.relabel φ))
    (h : ∀ d ∈ declaredAll x parts, ρ (some d.id) = some (φ d.id)) (v : View) :
    kind.plan x parts' (v.carry ρ) = (kind.plan x parts v).carry ρ := by
  have after := View.carry_after h v.enter
  unfold Kind.plan
  rw [hparts]
  split <;> simp only [Plan.carry, View.carry_enter, after, Option.map_none, Option.map_some]
  rfl

theorem useMeaning_carry (keeps : ∀ y, g y = x ↔ y = x) (kind : Kind) (info : Option Info) (v : View) :
    useMeaning x (kind.relabel g) (info.map (Info.relabel φ)) (v.carry ρ)
      = (useMeaning x kind info v).map (Meaning.carry φ ρ) := by
  cases info with
  | none => rfl
  | some info =>
    simp only [Option.map_some, useMeaning, Kind.uses_relabel keeps]
    split <;> rfl

mutual

/-- What a name means in a relabelled term that is seen from elsewhere. -/
theorem Term.meanings_carry {g : String → String} (keeps : ∀ y, g y = x ↔ y = x) : ∀ (t : Term),
    (∀ d, 0 < t.count d → ρ (some d) = some (φ d)) → ∀ (v : View) (b : Option View),
    (t.relabel φ g).meanings x (v.carry ρ) (b.map (View.carry ρ)) = (t.meanings x v b).map (Meaning.carry φ ρ)
  | .expr listed kind info parts, h, v, b => by
    have inside : ∀ d, 0 < countAll d parts → ρ (some d) = some (φ d) := fun d hd => h d (Nat.add_pos_right _ hd)
    have plan := kind.plan_carry (declaredAll_relabel keeps parts)
      (fun d hd => inside d.id (declaredAll_node hd)) v.enter
    rw [Term.relabel, Term.meanings, Term.meanings, map_append, Kind.plan_relabel, View.carry_enter,
      plan, meaningsAll_carry keeps parts inside, ← useMeaning_carry keeps]
    rfl
  | .group kind info parts, h, v, b => by
    have inside : ∀ d, 0 < countAll d parts → ρ (some d) = some (φ d) := fun d hd => h d (Nat.add_pos_right _ hd)
    have plan := kind.plan_carry (declaredAll_relabel keeps parts) (fun d hd => inside d.id (declaredAll_node hd)) v
    rw [Term.relabel, Term.meanings, Term.meanings, plan, meaningsAll_carry keeps parts inside]
  | .fixed kind info parts, h, v, b => by
    have inside : ∀ d, 0 < countAll d parts → ρ (some d) = some (φ d) := fun d hd => h d (Nat.add_pos_right _ hd)
    have same : ∀ y, id y = x ↔ y = x := fun _ => .rfl
    have plan := kind.plan_carry (declaredAll_relabel same parts) (fun d hd => inside d.id (declaredAll_node hd)) v
    have use := useMeaning_carry (φ := φ) (ρ := ρ) same kind info v
    rw [Kind.relabel_id] at use
    rw [Term.relabel, Term.meanings, Term.meanings, map_append, plan, meaningsAll_carry same parts inside, use]
  | .block info ss, h, v, b => by
    have view : (b.map (View.carry ρ)).getD (v.carry ρ).enter = (b.getD v.enter).carry ρ := by
      cases b <;> rfl
    rw [Term.relabel, Term.meanings, Term.meanings, view]
    exact meaningsIn_carry keeps ss (fun d hd => h d (Nat.add_pos_right _ hd)) _

theorem meaningsAll_carry {g : String → String} (keeps : ∀ y, g y = x ↔ y = x) : ∀ (ts : List Term),
    (∀ d, 0 < countAll d ts → ρ (some d) = some (φ d)) → ∀ p : Plan,
    meaningsAll x (p.carry ρ) (relabelAll φ g ts) = (meaningsAll x p ts).map (Meaning.carry φ ρ)
  | [], _, p => by rw [relabelAll, meaningsAll, meaningsAll, map_nil]
  | t :: ts, h, p => by
    have head : ∀ d, 0 < t.count d → ρ (some d) = some (φ d) := fun d hd => h d (Nat.add_pos_left hd _)
    have next := Plan.carry_next (fun d (hd : d ∈ t.declared x) => head d.id (Term.declared_node hd)) p
    rw [relabelAll, meaningsAll, meaningsAll, map_append, t.declared_relabel keeps, next,
      meaningsAll_carry keeps ts fun d hd => h d (Nat.add_pos_right _ hd), t.named?_relabel keeps,
      Option.isSome_map]
    congr 1
    show (if (p.skip && (t.named? x).isSome) = true then [] else _) = _
    split
    · rfl
    · exact t.meanings_carry keeps head p.view p.body

theorem meaningsIn_carry {g : String → String} (keeps : ∀ y, g y = x ↔ y = x) :
    ∀ (ss : List Statement), (∀ d, 0 < countIn d ss → ρ (some d) = some (φ d)) → ∀ v : View,
    meaningsIn x (v.carry ρ) (relabelIn φ g ss) = (meaningsIn x v ss).map (Meaning.carry φ ρ)
  | [], _, v => by rw [relabelIn, meaningsIn, meaningsIn, map_nil]
  | .mk kind info parts :: ss, h, v => by
    have inside : ∀ d, 0 < countAll d parts → ρ (some d) = some (φ d) :=
      fun d hd => h d (Nat.add_pos_left (Nat.add_pos_right _ hd) _)
    have plan := kind.plan_carry (declaredAll_relabel keeps parts) (fun d hd => inside d.id (declaredAll_node hd)) v
    have after := View.carry_after
      (fun d (hd : d ∈ Statement.declared x (.mk kind info parts)) => inside d.id (Statement.declared_node hd)) v
    rw [relabelIn, meaningsIn, meaningsIn, plan, meaningsAll_carry keeps parts inside,
      Statement.declared_relabel keeps, after,
      meaningsIn_carry keeps ss fun d hd => h d (Nat.add_pos_right _ hd)]
    simp only [cons_append, map_cons, map_append]
    rfl

end

end Carry

/-! ## Where declarations stand -/

section Decl

variable {p : Plan} {v : View} {ts : List Term} {ss : List Statement}

theorem Meaning.carry_decl (φ : NodeId → NodeId) (ρ : Option NodeId → Option NodeId) (m : Meaning) :
    (m.carry φ ρ).decl = ρ m.decl := by
  cases m <;> rfl

/-- If nothing but what is in `P` can be told from the meanings, they are in
`P`. -/
theorem decl_of_carry {ms : List Meaning} {P : Option NodeId → Prop}
    (h : ∀ ρ : Option NodeId → Option NodeId, (∀ r, P r → ρ r = r) → ms.map (Meaning.carry id ρ) = ms)
    (hm : m ∈ ms) : P m.decl := by
  classical
  refine Classical.not_not.mp fun hn => ?_
  -- move what `m` means to something else, and leave `P` alone
  let other : Option NodeId := if m.decl = none then some 0 else none
  let ρ : Option NodeId → Option NodeId := fun r => if P r then r else other
  have fixed := (h ρ fun r hr => if_pos hr).trans (map_id ms).symm
  have kept : m.carry id ρ = m := map_inj_left.mp fixed m hm
  have moved : other = m.decl := by
    rw [← if_neg hn (c := P m.decl) (t := m.decl) (e := other)]
    exact (Meaning.carry_decl id ρ m).symm.trans (congrArg Meaning.decl kept)
  unfold other at moved
  split at moved
  · rename_i hnone
    rw [hnone] at moved
    cases moved
  · exact absurd moved.symm ‹_›

/-- What a name means is what it means to begin with, or stands inside. -/
theorem meaningsAll_decl (hbody : p.body = none) (hm : m ∈ meaningsAll x p ts) :
    m.decl = p.view.decl ∨ ∃ d, m.decl = some d ∧ 0 < countAll d ts := by
  refine decl_of_carry (P := fun r => r = p.view.decl ∨ ∃ d, r = some d ∧ 0 < countAll d ts) (fun ρ hρ => ?_) hm
  have same : p.carry ρ = p := by
    obtain ⟨⟨decl, inner⟩, inTurn, body, skip⟩ := p
    cases hbody
    simp only [Plan.carry, View.carry, Option.map_none, hρ decl (.inl rfl)]
  have carried := meaningsAll_carry (φ := id) (ρ := ρ) (g := id) (x := x) (fun _ => .rfl) ts
    (fun d hd => hρ _ (.inr ⟨d, rfl, hd⟩)) p
  rw [same, relabelAll_id] at carried
  exact carried.symm

theorem meaningsIn_decl (hm : m ∈ meaningsIn x v ss) :
    m.decl = v.decl ∨ ∃ d, m.decl = some d ∧ 0 < countIn d ss := by
  refine decl_of_carry (P := fun r => r = v.decl ∨ ∃ d, r = some d ∧ 0 < countIn d ss) (fun ρ hρ => ?_) hm
  have same : v.carry ρ = v := by
    obtain ⟨decl, inner⟩ := v
    simp only [View.carry, hρ decl (.inl rfl)]
  have carried := meaningsIn_carry (φ := id) (ρ := ρ) (g := id) (x := x) (fun _ => .rfl) ss
    (fun d hd => hρ _ (.inr ⟨d, rfl, hd⟩)) v
  rw [same, relabelIn_id] at carried
  exact carried.symm

end Decl

end CheckHandle
