import CheckHandle.Proofs.Follow
import CheckHandle.Syntax.Rename

/-!
# Relabelled terms

`relabel φ g` gives every node of a term the identity `φ i` for `i`, and every
identifier expression the name `g y` for `y`. Names inside types, selected names
and declared names are kept, as in `Block.rename`, which is a relabelling.
-/

namespace CheckHandle

open List

def Info.relabel (φ : NodeId → NodeId) (info : Info) : Info := { info with id := φ info.id }

def Kind.relabel (g : String → String) : Kind → Kind
  | .ident y => .ident (g y)
  | kind => kind

mutual

/-- The term with the identities `φ i` for `i` and the names `g y` for `y`. What
a walk does not visit keeps its names. -/
def Term.relabel (φ : NodeId → NodeId) (g : String → String) : Term → Term
  | .expr listed kind info parts =>
    .expr listed (kind.relabel g) (info.relabel φ) (relabelAll φ g parts)
  | .group kind info parts => .group kind (info.map (Info.relabel φ)) (relabelAll φ g parts)
  | .fixed kind info parts => .fixed kind (info.map (Info.relabel φ)) (relabelAll φ id parts)
  | .block info ss => .block (info.relabel φ) (relabelIn φ g ss)

def relabelAll (φ : NodeId → NodeId) (g : String → String) : List Term → List Term
  | [] => []
  | t :: ts => t.relabel φ g :: relabelAll φ g ts

def relabelIn (φ : NodeId → NodeId) (g : String → String) : List Statement → List Statement
  | [] => []
  | .mk kind info parts :: ss =>
    .mk kind (info.relabel φ) (relabelAll φ g parts) :: relabelIn φ g ss

end

theorem Kind.relabel_id (kind : Kind) : kind.relabel id = kind := by
  cases kind <;> rfl

theorem relabel?_id (info : Option Info) : info.map (Info.relabel id) = info := by
  cases info <;> rfl

mutual

theorem Term.relabel_id : ∀ t : Term, t.relabel id id = t
  | .expr listed kind info parts => by
    rw [Term.relabel, Kind.relabel_id, relabelAll_id parts]
    rfl
  | .group kind info parts | .fixed kind info parts => by rw [Term.relabel, relabel?_id, relabelAll_id parts]
  | .block info ss => by
    rw [Term.relabel, relabelIn_id ss]
    rfl

theorem relabelAll_id : ∀ ts : List Term, relabelAll id id ts = ts
  | [] => by rw [relabelAll]
  | t :: ts => by rw [relabelAll, t.relabel_id, relabelAll_id ts]

theorem relabelIn_id : ∀ ss : List Statement, relabelIn id id ss = ss
  | [] => by rw [relabelIn]
  | .mk kind info parts :: ss => by
    rw [relabelIn, relabelAll_id parts, relabelIn_id ss]
    rfl

end

section Composition

variable {φ ψ : NodeId → NodeId}

theorem Kind.relabel_relabel (f g : String → String) (kind : Kind) :
    (kind.relabel f).relabel g = kind.relabel (g ∘ f) := by
  cases kind <;> rfl

theorem relabel?_relabel? (info : Option Info) :
    (info.map (Info.relabel φ)).map (Info.relabel ψ) = info.map (Info.relabel (ψ ∘ φ)) := by
  cases info <;> rfl

mutual

theorem Term.relabel_relabel (f g : String → String) : ∀ t : Term,
    (t.relabel φ f).relabel ψ g = t.relabel (ψ ∘ φ) (g ∘ f)
  | .expr listed kind info parts => by
    rw [Term.relabel, Term.relabel, Term.relabel, Kind.relabel_relabel, relabelAll_relabelAll f g parts]
    rfl
  | .group kind info parts => by
    rw [Term.relabel, Term.relabel, Term.relabel, relabel?_relabel?, relabelAll_relabelAll f g parts]
  | .fixed kind info parts => by
    rw [Term.relabel, Term.relabel, Term.relabel, relabel?_relabel?, relabelAll_relabelAll id id parts]
    rfl
  | .block info ss => by
    rw [Term.relabel, Term.relabel, Term.relabel, relabelIn_relabelIn f g ss]
    rfl

theorem relabelAll_relabelAll (f g : String → String) : ∀ ts : List Term,
    relabelAll ψ g (relabelAll φ f ts) = relabelAll (ψ ∘ φ) (g ∘ f) ts
  | [] => by rw [relabelAll, relabelAll, relabelAll]
  | t :: ts => by
    rw [relabelAll, relabelAll, relabelAll, t.relabel_relabel f g, relabelAll_relabelAll f g ts]

theorem relabelIn_relabelIn (f g : String → String) : ∀ ss : List Statement,
    relabelIn ψ g (relabelIn φ f ss) = relabelIn (ψ ∘ φ) (g ∘ f) ss
  | [] => by rw [relabelIn, relabelIn, relabelIn]
  | .mk kind info parts :: ss => by
    rw [relabelIn, relabelIn, relabelIn, relabelAll_relabelAll f g parts,
      relabelIn_relabelIn f g ss]
    rfl

end

end Composition

theorem relabelAll_append (φ : NodeId → NodeId) (g : String → String) (ts us : List Term) :
    relabelAll φ g (ts ++ us) = relabelAll φ g ts ++ relabelAll φ g us :=
  append_of_cons rfl (fun _ _ => by simp [relabelAll]) ts us

theorem relabelIn_append (φ : NodeId → NodeId) (g : String → String) (ss ts : List Statement) :
    relabelIn φ g (ss ++ ts) = relabelIn φ g ss ++ relabelIn φ g ts :=
  append_of_cons rfl (fun ⟨_, _, _⟩ _ => by simp [relabelIn]) ss ts

/-! ## Identities -/

mutual

/-- The identities of the nodes of a term, the term's own first. -/
def Term.ids : Term → List NodeId
  | .expr _ _ info parts => info.id :: idsAll parts
  | .group _ info parts => (info.map Info.id).toList ++ idsAll parts
  | .fixed _ info parts => (info.map Info.id).toList ++ idsAll parts
  | .block info stmts => info.id :: idsIn stmts

def idsAll : List Term → List NodeId
  | [] => []
  | t :: ts => t.ids ++ idsAll ts

def idsIn : List Statement → List NodeId
  | [] => []
  | .mk _ info parts :: ss => info.id :: (idsAll parts ++ idsIn ss)

end

theorem count_id_cons (info : Info) (is : List NodeId) (i : NodeId) :
    (info.id :: is).count i = info.count i + is.count i := by
  rw [count_cons, Info.count, Nat.add_comm]
  simp only [beq_iff_eq]

theorem count_ids? (info : Option Info) (i : NodeId) : (info.map Info.id).toList.count i = countInfo? i info := by
  cases info with
  | none => rfl
  | some info => exact (count_id_cons info [] i).trans (Nat.add_zero _)

mutual

theorem Term.count_ids (t : Term) (i : NodeId) : t.ids.count i = t.count i := by
  cases t with
  | expr listed kind info parts =>
    rw [Term.ids, count_id_cons, count_idsAll, Term.count]
  | group kind info parts | fixed kind info parts =>
    rw [Term.ids, count_append, count_ids?, count_idsAll, Term.count]
  | block info stmts =>
    rw [Term.ids, count_id_cons, count_idsIn, Term.count]

theorem count_idsAll (ts : List Term) (i : NodeId) : (idsAll ts).count i = countAll i ts := by
  cases ts with
  | nil => rfl
  | cons t ts => rw [idsAll, count_append, Term.count_ids, count_idsAll, countAll]

theorem count_idsIn (ss : List Statement) (i : NodeId) : (idsIn ss).count i = countIn i ss := by
  cases ss with
  | nil => rfl
  | cons s ss =>
    obtain ⟨kind, info, parts⟩ := s
    rw [idsIn, count_id_cons, count_append, count_idsAll, count_idsIn, countIn, Nat.add_assoc]

end

section Identities

variable {φ : NodeId → NodeId}

theorem ids?_relabel (info : Option Info) :
    ((info.map (Info.relabel φ)).map Info.id).toList = (info.map Info.id).toList.map φ := by
  cases info <;> rfl

mutual

theorem Term.ids_relabel {g : String → String} : ∀ t : Term, (t.relabel φ g).ids = t.ids.map φ
  | .expr listed kind info parts => by
    rw [Term.relabel, Term.ids, Term.ids, idsAll_relabel parts]
    rfl
  | .group kind info parts | .fixed kind info parts => by
    rw [Term.relabel, Term.ids, Term.ids, ids?_relabel, idsAll_relabel parts, map_append]
  | .block info ss => by
    rw [Term.relabel, Term.ids, Term.ids, idsIn_relabel ss]
    rfl

theorem idsAll_relabel {g : String → String} : ∀ ts : List Term, idsAll (relabelAll φ g ts) = (idsAll ts).map φ
  | [] => by rw [relabelAll, idsAll, map_nil]
  | t :: ts => by rw [relabelAll, idsAll, idsAll, t.ids_relabel, idsAll_relabel ts, map_append]

theorem idsIn_relabel {g : String → String} : ∀ ss : List Statement,
    idsIn (relabelIn φ g ss) = (idsIn ss).map φ
  | [] => by rw [relabelIn, idsIn, map_nil]
  | .mk kind info parts :: ss => by
    rw [relabelIn, idsIn, idsIn, idsAll_relabel parts, idsIn_relabel ss, map_cons,
      map_append]
    rfl

end

/-- Other names do not change the identities. -/
theorem Term.count_relabel_names {g : String → String} (t : Term) (i : NodeId) :
    (t.relabel id g).count i = t.count i := by
  rw [← Term.count_ids, t.ids_relabel, map_id, t.count_ids]

end Identities

/-! ## Renaming is a relabelling -/

/-- The name `new` for `old`, and every other name for itself. -/
def substName (old new name : String) : String :=
  if name == old then new else name

section Rename

variable {old new : String}

/-- An identifier takes its new name when it is left. -/
theorem renamer_visited {x x' : Expr} {position : Position} {action : ExprAction} {s s' : Unit}
    (hkind : x'.kind = x.kind) (hinfo : x'.info = x.info)
    (hparts : x'.parts = relabelAll id (substName old new) x.parts)
    (h : (renamer old new).exitExpr x' position s = (.ok action, s')) :
    ∃ y, action.visited x' = ⟨y, none⟩ ∧ y.kind = x.kind.relabel (substName old new) ∧
      y.info = x.info ∧ y.parts = relabelAll id (substName old new) x.parts := by
  cases x' with
  | ident info name =>
    rw [← hkind, ← hinfo]
    by_cases hold : name == old
    · simp only [renamer, hold, if_true] at h
      cases h
      exact ⟨.ident info new, rfl, by simp [Expr.kind, Kind.relabel, substName, hold], rfl, hparts⟩
    · simp only [renamer, hold] at h
      cases h
      exact ⟨.ident info name, rfl, by simp [Expr.kind, Kind.relabel, substName, hold], rfl, hparts⟩
  | _ =>
    cases h
    rw [← hkind, ← hinfo]
    exact ⟨_, rfl, rfl, rfl, hparts⟩

/-- Renaming relabels every term. -/
theorem follows_renamer (old new : String) : Follows (renamer old new)
    (fun _ ts ts' _ => ts' = relabelAll id (substName old new) ts)
    (fun _ ss ss' _ => ss' = relabelIn id (substName old new) ss) where
  nil {_} := by rw [relabelAll]
  append h1 h2 := by rw [h1, h2, relabelAll_append]
  fixed {_ _ _ _} := by rw [relabelAll, relabelAll, Term.relabel, relabel?_id, relabelAll_id]
  group h := by rw [relabelAll, relabelAll, Term.relabel, relabel?_id, h]
  expr {x x' listed slot region action s s1 s'} hkind hinfo _ hparts hexit := by
    obtain ⟨y, hvisited, hk, hi, hp⟩ := renamer_visited hkind hinfo hparts hexit
    rw [hvisited]
    have inPlace : (⟨y, none⟩ : Visited).inPlace listed = [y] := by cases listed <;> rfl
    rw [inPlace, exprTerms, exprTerms, hk, hi, hp, Expr.term, relabelAll, relabelAll, Term.relabel]
    rfl
  func _ h _ := h
  block _ h _ := by
    rw [relabelAll, relabelAll, Term.relabel, h]
    rfl
  done {_} := by rw [relabelIn]
  andThen h1 h2 := by rw [h1, h2, relabelIn_append]
  removed h := by cases h
  skipped h := by cases h
  stmt {t t' action s s1 s2 s3} _ hkind hinfo _ hparts hexit := by
    cases hexit
    rw [Stmt.statement, relabelIn, relabelIn, ← hparts]
    show [Statement.mk t'.kind t'.info t'.parts] = _
    rw [hkind, hinfo]
    rfl
  exprStmt {info x x' action act s s1 s2 s3 s4} hkind hinfo _ hparts hx hexit := by
    obtain ⟨y, hvisited, hk, hi, hp⟩ := renamer_visited hkind hinfo hparts hx
    rw [hvisited] at hexit ⊢
    cases hexit
    show [Statement.mk .exprStmt info [.expr false y.kind y.info y.parts]] = _
    rw [hk, hi, hp, Stmt.statement, relabelIn, relabelIn]
    simp only [Stmt.parts, relabelAll, Term.relabel]
    rfl

theorem Block.term_rename (b : Block) : (b.rename old new).term = b.term.relabel id (substName old new) := by
  have succeeds : Succeeds (walkBlock (renamer old new) b) () (b.rename old new) () := by
    unfold Succeeds
    rcases hwalk : walkBlock (renamer old new) b ⟨(), none⟩ with ⟨b', ⟨⟩, failure⟩
    cases failure with
    | some e => cases e
    | none => rw [Block.rename, hwalk]
  have := ((follows_renamer old new).traverses.inBlock b).of succeeds
  rw [relabelAll, relabelAll] at this
  exact head_eq_of_cons_eq this

end Rename

end CheckHandle
