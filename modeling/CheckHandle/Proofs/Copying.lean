import CheckHandle.Proofs.Handling

/-!
# Copies of handlers

A copy of a handler is its body with other identities and another name for the
error. What `renumber` makes has the shape of what it is given, and a term of the
shape of another in which no identity stands twice is a relabelling of it
(`Term.exists_relabel`); so is what `rename` makes (`Block.term_rename`).
-/

namespace CheckHandle

/-! ## Shapes -/

/-- The term without its identities. -/
abbrev Term.shape (t : Term) : Term := t.relabel (fun _ => 0) id

abbrev shapeAll : List Term → List Term := relabelAll (fun _ => 0) id

abbrev shapeIn : List Statement → List Statement := relabelIn (fun _ => 0) id

abbrev Info.shape (info : Info) : Info := info.relabel fun _ => 0

theorem Info.eq_of_shape {info info' : Info} (shape : info'.shape = info.shape) (ids : info'.id = info.id) :
    info' = info := by
  obtain ⟨id, span⟩ := info
  obtain ⟨id', span'⟩ := info'
  cases ids
  cases shape
  rfl

theorem eq_of_shape? {info info' : Option Info} {is is' : List NodeId}
    (shape : info'.map Info.shape = info.map Info.shape)
    (ids : (info'.map Info.id).toList ++ is' = (info.map Info.id).toList ++ is) : info' = info ∧ is' = is := by
  cases info <;> cases info' <;> simp only [Option.map_none, Option.map_some, reduceCtorEq, Option.some.injEq] at shape
  · exact ⟨rfl, ids⟩
  · obtain ⟨hid, his⟩ := List.cons.inj ids
    exact ⟨congrArg some (Info.eq_of_shape shape hid), his⟩

theorem length_ids_of_shape {t t' : Term} (shape : t'.shape = t.shape) : t'.ids.length = t.ids.length := by
  have := congrArg (fun t => t.ids.length) shape
  simpa [Term.ids_relabel] using this

theorem length_idsAll_of_shape {ts ts' : List Term} (shape : shapeAll ts' = shapeAll ts) :
    (idsAll ts').length = (idsAll ts).length := by
  have := congrArg (fun ts => (idsAll ts).length) shape
  simpa [idsAll_relabel] using this

mutual

/-- A term is told by its shape and its identities. -/
theorem Term.eq_of_shape : ∀ {t t' : Term}, t'.shape = t.shape → t'.ids = t.ids → t' = t
  | .expr listed kind info parts, t', shape, ids => by
    cases t' with
    | expr listed' kind' info' parts' =>
      simp only [Term.relabel, Kind.relabel_id, Term.expr.injEq] at shape
      obtain ⟨rfl, rfl, hinfo, hparts⟩ := shape
      obtain ⟨hid, hids⟩ := List.cons.inj ids
      rw [Info.eq_of_shape hinfo hid, eqTerms_of_shape hparts hids]
    | _ => simp [Term.relabel] at shape
  | .group kind info parts, t', shape, ids | .fixed kind info parts, t', shape, ids => by
    cases t' <;> simp only [Term.relabel, Term.group.injEq, Term.fixed.injEq, reduceCtorEq] at shape
    obtain ⟨rfl, hinfo, hparts⟩ := shape
    obtain ⟨rfl, hids⟩ := eq_of_shape? hinfo ids
    rw [eqTerms_of_shape hparts hids]
  | .block info ss, t', shape, ids => by
    cases t' with
    | block info' ss' =>
      simp only [Term.relabel, Term.block.injEq] at shape
      obtain ⟨hid, hids⟩ := List.cons.inj ids
      rw [Info.eq_of_shape shape.1 hid, eqStatements_of_shape shape.2 hids]
    | _ => simp [Term.relabel] at shape

theorem eqTerms_of_shape : ∀ {ts ts' : List Term}, shapeAll ts' = shapeAll ts → idsAll ts' = idsAll ts → ts' = ts
  | [], ts', shape, _ => by
    cases ts' with
    | nil => rfl
    | cons => simp [relabelAll] at shape
  | t :: ts, ts', shape, ids => by
    cases ts' with
    | nil => simp [relabelAll] at shape
    | cons t' ts' =>
      simp only [relabelAll, List.cons.injEq] at shape
      obtain ⟨hid, hids⟩ := List.append_inj ids (length_ids_of_shape shape.1)
      rw [Term.eq_of_shape shape.1 hid, eqTerms_of_shape shape.2 hids]

theorem eqStatements_of_shape : ∀ {ss ss' : List Statement},
    shapeIn ss' = shapeIn ss → idsIn ss' = idsIn ss → ss' = ss
  | [], ss', shape, _ => by
    cases ss' with
    | nil => rfl
    | cons s' =>
      cases s'
      simp [relabelIn] at shape
  | .mk kind info parts :: ss, ss', shape, ids => by
    cases ss' with
    | nil => simp [relabelIn] at shape
    | cons s' ss' =>
      obtain ⟨kind', info', parts'⟩ := s'
      simp only [relabelIn, List.cons.injEq, Statement.mk.injEq] at shape
      obtain ⟨⟨rfl, hinfo, hparts⟩, hss⟩ := shape
      obtain ⟨hid, hids⟩ := List.cons.inj ids
      obtain ⟨hids, hids'⟩ := List.append_inj hids (length_idsAll_of_shape hparts)
      rw [Info.eq_of_shape hinfo hid, eqTerms_of_shape hparts hids, eqStatements_of_shape hss hids']

end

/-- A term of the same shape is a relabelling. -/
theorem Term.exists_relabel {t t' : Term} (shape : t'.shape = t.shape) (once : ∀ i, t.count i ≤ 1) :
    ∃ φ, t' = t.relabel φ id := by
  have nodup : t.ids.Nodup := List.nodup_iff_count_le_one.mpr fun i => by
    rw [t.count_ids]
    exact once i
  have length := length_ids_of_shape shape
  let φ : NodeId → NodeId := fun i => t'.ids.getD (t.ids.idxOf i) 0
  have ids : t'.ids = t.ids.map φ := by
    refine List.ext_getElem (by rw [List.length_map, length]) fun k hk hk' => ?_
    rw [List.getElem_map]
    simp [φ, nodup.idxOf_getElem, hk]
  refine ⟨φ, Term.eq_of_shape ?_ (by rw [ids, t.ids_relabel])⟩
  rw [shape, Term.shape, Term.shape, Term.relabel_relabel]
  rfl

/-! ## What `renumber` makes -/

theorem Info.shape_renumber (info : Info) (n : NodeId) : (info.renumber n).1.shape = info.shape := rfl

section

attribute [local simp] fresh_bind_apply fresh_map_apply fresh_pure_apply Term.renumber renumberAll renumberIn
  renumberInfo? Term.relabel relabelAll relabelIn Info.shape_renumber

mutual

theorem Term.shape_renumber : ∀ (t : Term) (n : NodeId), (t.renumber n).1.shape = t.shape
  | .expr _ _ info parts, n => by simp [shape_renumberAll parts]
  | .group _ info parts, n | .fixed _ info parts, n => by cases info <;> simp [shape_renumberAll parts]
  | .block info ss, n => by simp [shape_renumberIn ss]

theorem shape_renumberAll : ∀ (ts : List Term) (n : NodeId), shapeAll (renumberAll ts n).1 = shapeAll ts
  | [], n => rfl
  | t :: ts, n => by simp [t.shape_renumber, shape_renumberAll ts]

theorem shape_renumberIn : ∀ (ss : List Statement) (n : NodeId),
    shapeIn (renumberIn ss n).1 = shapeIn ss
  | [], n => rfl
  | .mk _ info parts :: ss, n => by simp [shape_renumberAll parts, shape_renumberIn ss]

end

end

theorem TypeExpr.shape_renumber (t : TypeExpr) (n : NodeId) : (t.renumber n).1.term.shape = t.term.shape := by
  rw [← t.term.shape_renumber n, t.term_renumber]

theorem Block.shape_renumber (b : Block) (n : NodeId) : (b.renumber n).1.term.shape = b.term.shape := by
  rw [← b.term.shape_renumber n, b.term_renumber]

/-! ## Copies -/

/-- `ss'` are the statements `ss` with the identity `φ i` for `i`, all different,
and with the names `g y` for `y`. -/
structure CopiedBy (φ : NodeId → NodeId) (g : String → String) (ss ss' : List Statement) : Prop where
  eq_relabel : ss' = relabelIn φ g ss
  injective : ∀ i j, 0 < countIn i ss → 0 < countIn j ss → φ i = φ j → i = j

/-- A copy of a handler has its statements, with new identities and the name of
the error put in. -/
theorem Handler.exists_copiedBy {h : Handler} {errVar : String} {copy : List Stmt} {n n' : NodeId}
    (hcopy : h.instantiate errVar n = (copy, n')) (once : ∀ i, h.body.count i ≤ 1) :
    ∃ φ, CopiedBy φ (substName handleError errVar) (statements h.body.stmts) (statements copy) := by
  have draws := h.instantiate_draws errVar hcopy
  obtain ⟨body, n1, hbody, heq⟩ := fresh_bind.mp hcopy
  obtain ⟨rfl, -⟩ := fresh_pure.mp heq
  have shape : body.term.shape = h.body.term.shape := by
    rw [← h.body.shape_renumber n, hbody]
  obtain ⟨φ, hφ⟩ := Term.exists_relabel shape fun i => by
    rw [Block.count_term]
    exact once i
  have renamed : (body.rename handleError errVar).term = h.body.term.relabel φ (substName handleError errVar) := by
    rw [Block.term_rename, hφ, Term.relabel_relabel]
    rfl
  rcases hcopied : body.rename handleError errVar with ⟨info', stmts'⟩
  rcases hwritten : h.body with ⟨info, stmts⟩
  rw [hcopied, hwritten, Block.term, Block.term, Term.relabel, Term.block.injEq] at renamed
  rw [hcopied] at draws
  -- two identities that became one would stand in the copy twice
  have nodup : ((idsIn (statements stmts)).map φ).Nodup := by
    rw [← idsIn_relabel (g := substName handleError errVar), ← renamed.2]
    refine List.nodup_iff_count_le_one.mpr fun i => ?_
    rw [count_idsIn, countIn_stmts]
    have : countStmts i stmts' + spare n' i ≤ 0 + spare n i := draws i
    have := spare_le_one n i
    omega
  refine ⟨φ, renamed.2, fun i j hi hj => List.inj_on_of_nodup_map nodup ?_ ?_⟩
  · exact List.count_pos_iff.mp (by rw [count_idsIn]; exact hi)
  · exact List.count_pos_iff.mp (by rw [count_idsIn]; exact hj)

end CheckHandle
