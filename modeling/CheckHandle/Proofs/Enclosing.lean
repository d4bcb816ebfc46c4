import CheckHandle.Proofs.Binding

/-!
# What is around a check

The functions and blocks around every expression of a tree, read off the tree
from the outside in. Collection keeps stacks of what it is inside of instead,
and puts the handlers that it comes across on them. The two agree: a check is
bound to the innermost function, block and statement around it, and its chain
lists the handlers of that function that stand before it in blocks around it.
-/

namespace CheckHandle

open Std List

variable {func : FuncFrame} {funcs : List FuncFrame} {k j : Nat} {t : Stmt} {markers : Markers} {x : Expr}
    {position : Position} {action : ExprAction} {id : NodeId} {ss : List Statement} {d : FuncDecl} {b : Block}
    {occurs : NodeId → Nat}

/-! ## Surroundings -/

/-- A block around a node: the statements before the one that holds the node,
and that one. -/
structure Level where
  block : NodeId
  before : List Statement
  stmt : Statement

/-- A function around a node, with its blocks around the node, the innermost
first. -/
structure Enclosure where
  func : NodeId
  sig : Term
  levels : List Level := []

/-- The function that a term is, with its signature, if it has a body. -/
def Term.function? : Term → Option (NodeId × Term)
  | .expr _ .funcLit info (sig :: _) => some (info.id, sig)
  | .group .func (some info) [_, _, sig, .block _ _] => some (info.id, sig)
  | _ => none

/-- What is around the parts of a term. -/
def enclose (t : Term) (around : List Enclosure) : List Enclosure :=
  match t.function? with
  | some (func, sig) => { func, sig } :: around
  | none => around

/-- What is around the parts of a statement. -/
def deepen (level : Level) : List Enclosure → List Enclosure
  | [] => []
  | e :: es => { e with levels := level :: e.levels } :: es

mutual

/-- The expressions of a term, each with the functions around it, the innermost
first. -/
def Term.sites (around : List Enclosure) : Term → List (Info × List Enclosure)
  | .expr listed kind info parts =>
    sitesAll (enclose (.expr listed kind info parts) around) parts ++ [(info, around)]
  | .group kind info parts => sitesAll (enclose (.group kind info parts) around) parts
  | .fixed .. => []
  | .block info ss => sitesIn around info.id [] ss

def sitesAll (around : List Enclosure) : List Term → List (Info × List Enclosure)
  | [] => []
  | t :: ts => t.sites around ++ sitesAll around ts

/-- Those of statements of `block`, which come after the statements `before`. -/
def sitesIn (around : List Enclosure) (block : NodeId) (before : List Statement) :
    List Statement → List (Info × List Enclosure)
  | [] => []
  | .mk kind info parts :: ss =>
    sitesAll (deepen ⟨block, before, .mk kind info parts⟩ around) parts
      ++ sitesIn around block (before ++ [.mk kind info parts]) ss

end

mutual

/-- The functions in a term, in the order in which they start. -/
def Term.functions : Term → List (NodeId × Term)
  | .expr listed kind info parts =>
    (Term.expr listed kind info parts).function?.toList ++ functionsAll parts
  | .group kind info parts => (Term.group kind info parts).function?.toList ++ functionsAll parts
  | .fixed .. => []
  | .block _ ss => functionsIn ss

def functionsAll : List Term → List (NodeId × Term)
  | [] => []
  | t :: ts => t.functions ++ functionsAll ts

def functionsIn : List Statement → List (NodeId × Term)
  | [] => []
  | .mk _ _ parts :: ss => functionsAll parts ++ functionsIn ss

end

theorem Expr.function?_term (x : Expr) (listed : Bool) : (x.term listed).function? = (x.term false).function? := by
  cases x <;> rfl

theorem sitesAll_append (around : List Enclosure) (ts us : List Term) :
    sitesAll around (ts ++ us) = sitesAll around ts ++ sitesAll around us :=
  append_of_cons rfl (fun _ _ => by simp [sitesAll]) ts us

theorem sitesIn_append (around : List Enclosure) (block : NodeId) (before ss ts : List Statement) :
    sitesIn around block before (ss ++ ts) = sitesIn around block before ss
        ++ sitesIn around block (before ++ ss) ts := by
  induction ss generalizing before with
  | nil => rw [nil_append, sitesIn, nil_append, append_nil]
  | cons s ss ih =>
    obtain ⟨kind, info, parts⟩ := s
    rw [cons_append, sitesIn, ih, sitesIn, append_assoc, append_assoc, singleton_append]

theorem functionsAll_append (ts us : List Term) :
    functionsAll (ts ++ us) = functionsAll ts ++ functionsAll us :=
  append_of_cons rfl (fun _ _ => by simp [functionsAll]) ts us

theorem functionsIn_append (ss ts : List Statement) :
    functionsIn (ss ++ ts) = functionsIn ss ++ functionsIn ts :=
  append_of_cons rfl (fun ⟨_, _, _⟩ _ => by simp [functionsIn]) ss ts

/-! ## Stacks and surroundings -/

section Stacks

-- which statements are handlers, with their numbers, and the numbers of functions
variable (N : Statement → Nat → Prop) (F : NodeId × Term → Nat → Prop)

/-- The handlers among these statements, the latest first. -/
inductive HandlersOf : List Statement → List Nat → Prop
  | nil : HandlersOf [] []
  | handler {before : List Statement} {js : List Nat} {t : Statement} {j : Nat}
      (h : HandlersOf before js) (ht : N t j) : HandlersOf (before ++ [t]) (j :: js)
  | other {before : List Statement} {js : List Nat} {t : Statement}
      (h : HandlersOf before js) (ht : ∀ j, ¬ N t j) : HandlersOf (before ++ [t]) js

/-- The block on the stack is the one around the node. -/
def BlockFrame.Matches (frame : BlockFrame) (level : Level) : Prop :=
  frame.id = level.block ∧ HandlersOf N level.before frame.handlers

/-- The handlers on the stack have falling numbers below `n`. -/
def Falls (n : Nat) (blocks : List BlockFrame) : Prop :=
  (blocks.flatMap BlockFrame.handlers).Pairwise (· > ·) ∧ ∀ j ∈ blocks.flatMap BlockFrame.handlers, j < n

/-- The stacks are those of a node with these surroundings. -/
def Agrees (s : Collecting) : List Enclosure → Prop
  | [] => s.funcs = []
  | e :: _ => ∃ frame frames, s.funcs = frame :: frames ∧ F (e.func, e.sig) frame.index ∧
      List.Forall₂ (BlockFrame.Matches N) frame.blocks e.levels ∧
      (∀ level levels, e.levels = level :: levels → s.stmts.head? = some level.stmt.info.id) ∧
      Falls s.out.handlers.length frame.blocks

/-- The same between the statements of `block`, after the statements `before`. -/
def Opened (s : Collecting) (block : NodeId) (before : List Statement) : List Enclosure → Prop
  | [] => s.funcs = []
  | e :: _ => ∃ frame frames top blocks, s.funcs = frame :: frames ∧ frame.blocks = top :: blocks ∧
      F (e.func, e.sig) frame.index ∧ top.id = block ∧ HandlersOf N before top.handlers ∧
      List.Forall₂ (BlockFrame.Matches N) blocks e.levels ∧
      Falls s.out.handlers.length frame.blocks

/-- `b` is bound to what is around its node. -/
def CheckBinding.Describes (b : CheckBinding) (around : List Enclosure) : Prop :=
  ∃ e es level levels, around = e :: es ∧ e.levels = level :: levels ∧ F (e.func, e.sig) b.func ∧
    b.block = level.block ∧ b.stmt = level.stmt.info.id ∧
    (∃ chains, List.Forall₂ (fun level js => HandlersOf N level.before js) e.levels chains ∧ b.chain = chains.flatten) ∧
    b.chain.Pairwise (· > ·)

/-- What is bound from `s` to `s'` stands in one of the places `sites`. -/
def News (s s' : Collecting) (sites : List (Info × List Enclosure)) : Prop :=
  ∀ i b, s'.out.checks.get? i = some b → s.out.checks.get? i = some b ∨
    ∃ around, (⟨b.id, b.span⟩, around) ∈ sites ∧ b.Describes N F around

end Stacks

section Lemmas

variable {N : Statement → Nat → Prop} {F : NodeId × Term → Nat → Prop} {s s1 s2 s' : Collecting}
  {around : List Enclosure} {sites sites1 sites2 : List (Info × List Enclosure)}

theorem Falls.mono {n n' : Nat} {blocks : List BlockFrame} (h : Falls n blocks) (hle : n ≤ n') : Falls n' blocks :=
  ⟨h.1, fun j hj => Nat.lt_of_lt_of_le (h.2 j hj) hle⟩

theorem Agrees.mono (h : Agrees N F s around) (funcs : s'.funcs = s.funcs)
    (stmts : s'.stmts = s.stmts) (grows : s.out.handlers.length ≤ s'.out.handlers.length) :
    Agrees N F s' around := by
  cases around with
  | nil => exact funcs.trans h
  | cons e es =>
    obtain ⟨frame, frames, hfuncs, hindex, hblocks, hstmts, falls⟩ := h
    refine ⟨frame, frames, funcs.trans hfuncs, hindex, hblocks, ?_, falls.mono grows⟩
    rw [stmts]
    exact hstmts

theorem Collecting.block?_eq (h : s.funcs = func :: funcs) : s.block? = func.blocks.head?.map BlockFrame.id := by
  obtain ⟨index, blocks⟩ := func
  unfold Collecting.block?
  rw [h]
  cases blocks <;> rfl

/-- A check that is bound with these stacks is bound to what is around it. -/
theorem Agrees.describes {b : CheckBinding}
    {stmts : List NodeId} (h : Agrees N F s around) (hfuncs : s.funcs = func :: funcs)
    (hstmts : s.stmts = b.stmt :: stmts) (hblock : s.block? = some b.block)
    (hfunc : b.func = func.index) (hchain : b.chain = s.chain) : b.Describes N F around := by
  cases around with
  | nil =>
    rw [show s.funcs = [] from h] at hfuncs
    cases hfuncs
  | cons e es =>
    obtain ⟨frame, frames, hframe, hindex, hblocks, hinner, falls⟩ := h
    rw [hfuncs] at hframe
    cases hframe
    have chain_eq : b.chain = func.blocks.flatMap BlockFrame.handlers := by
      rw [hchain, Collecting.chain, hfuncs]
    rw [Collecting.block?_eq hfuncs] at hblock
    rcases hfirst : func.blocks with _ | ⟨top, blocks⟩
    · rw [hfirst] at hblock
      cases hblock
    rw [hfirst] at hblock hblocks
    rcases hlevels : e.levels with _ | ⟨level, levels⟩
    · rw [hlevels] at hblocks
      cases hblocks
    have matching := hblocks
    rw [hlevels] at hblocks
    obtain ⟨hmatch, -⟩ := forall₂_cons.mp hblocks
    refine ⟨e, es, level, levels, rfl, hlevels, hfunc ▸ hindex, ?_, ?_, ?_, chain_eq ▸ falls.1⟩
    · rw [← hmatch.1]
      exact (Option.some.inj hblock).symm
    · have := hinner level levels hlevels
      rw [hstmts] at this
      exact Option.some.inj this
    · refine ⟨func.blocks.map BlockFrame.handlers, ?_, ?_⟩
      · rw [hfirst]
        exact (forall₂_map_right_iff.mpr (matching.imp fun _ _ h => h.2).flip)
      · rw [chain_eq, flatMap_def]

namespace News

theorem of_eq (h : s'.out.checks = s.out.checks) : News N F s s' sites := by
  intro i b hb
  rw [h] at hb
  exact .inl hb

theorem trans (h1 : News N F s s1 sites1) (h2 : News N F s1 s2 sites2) : News N F s s2 (sites1 ++ sites2) := by
  intro i b hb
  rcases h2 i b hb with hb | ⟨around, hsite, hdescribes⟩
  · rcases h1 i b hb with hb | ⟨around, hsite, hdescribes⟩
    · exact .inl hb
    · exact .inr ⟨around, mem_append_left _ hsite, hdescribes⟩
  · exact .inr ⟨around, mem_append_right _ hsite, hdescribes⟩

theorem of_same (h : News N F s1 s2 sites) (hs : s1.out.checks = s.out.checks)
    (hs' : s'.out.checks = s2.out.checks) : News N F s s' sites := by
  intro i b hb
  rw [hs'] at hb
  rcases h i b hb with hb | hb
  · rw [hs] at hb
    exact .inl hb
  · exact .inr hb

end News

/-! ## Handlers and functions along a walk -/

/-- The signature and the result types of a function. -/
def Returns (f : NodeId × Term) (slots : List TypeExpr) : Prop :=
  ∃ sig : Signature, f.2 = sig.term ∧ slots = sig.resultSlots

/-- Collection from `s` to `s'` over a part with the nodes `occurs` takes the
statements `taken` out and comes across the functions `fns`. -/
structure Moves (markers : Markers) (occurs : NodeId → Nat) (fns : List (NodeId × Term))
    (s s' : Collecting) (taken : List Stmt) : Prop where
  stmts : s'.stmts = s.stmts
  once : ∀ i, (taken.map fun t => t.info.id).count i ≤ occurs i
  handlers : ∃ new, s'.out.handlers = s.out.handlers ++ new ∧ List.Forall₂ markers.Turns taken new
  funcs : ∃ slots, s'.out.funcs = s.out.funcs ++ slots ∧ List.Forall₂ Returns fns slots

namespace Moves

variable {occurs1 occurs2 : NodeId → Nat}
  {fns fns1 fns2 : List (NodeId × Term)} {taken taken1 taken2 : List Stmt}

theorem of_eq (hstmts : s'.stmts = s.stmts) (hhandlers : s'.out.handlers = s.out.handlers)
    (hfuncs : s'.out.funcs = s.out.funcs) : Moves markers occurs [] s s' [] where
  stmts := hstmts
  once i := Nat.zero_le _
  handlers := ⟨[], by rw [hhandlers, append_nil], .nil⟩
  funcs := ⟨[], by rw [hfuncs, append_nil], .nil⟩

theorem mono (h : Moves markers occurs1 fns s s' taken) (hle : ∀ i, occurs1 i ≤ occurs i) :
    Moves markers occurs fns s s' taken :=
  { h with once := fun i => Nat.le_trans (h.once i) (hle i) }

theorem trans (h1 : Moves markers occurs1 fns1 s s1 taken1) (h2 : Moves markers occurs2 fns2 s1 s2 taken2) :
    Moves markers (fun i => occurs1 i + occurs2 i) (fns1 ++ fns2) s s2 (taken1 ++ taken2) where
  stmts := h2.stmts.trans h1.stmts
  once i := by
    have := h1.once i
    have := h2.once i
    rw [map_append, count_append]
    omega
  handlers := by
    obtain ⟨new1, hnew1, turns1⟩ := h1.handlers
    obtain ⟨new2, hnew2, turns2⟩ := h2.handlers
    exact ⟨new1 ++ new2, by rw [hnew2, hnew1, append_assoc], rel_append turns1 turns2⟩
  funcs := by
    obtain ⟨slots1, hslots1, returns1⟩ := h1.funcs
    obtain ⟨slots2, hslots2, returns2⟩ := h2.funcs
    exact ⟨slots1 ++ slots2, by rw [hslots2, hslots1, append_assoc], rel_append returns1 returns2⟩

theorem handlers_length (h : Moves markers occurs fns s s' taken) :
    s'.out.handlers.length = s.out.handlers.length + taken.length := by
  obtain ⟨new, hnew, turns⟩ := h.handlers
  rw [hnew, length_append, turns.length_eq]

theorem funcs_length (h : Moves markers occurs fns s s' taken) :
    s'.out.funcs.length = s.out.funcs.length + fns.length := by
  obtain ⟨slots, hslots, returns⟩ := h.funcs
  rw [hslots, length_append, returns.length_eq]

theorem occurs_of_takes (h : Moves markers occurs fns s s' taken) {i : NodeId}
    (hi : takes taken i = true) : 0 < occurs i := by
  obtain ⟨t, ht, heq⟩ := any_eq_true.mp hi
  have mem : i ∈ taken.map fun t => t.info.id := mem_map.mpr ⟨t, ht, eq_of_beq heq⟩
  exact Nat.lt_of_lt_of_le (count_pos_iff.mpr mem) (h.once i)

/-- No statement is taken out twice. -/
theorem index_unique (h : Moves markers occurs fns s s' taken) (distinct : ∀ i, occurs i ≤ 1)
    {k' : Nat} {t' : Stmt} (hk : taken[k]? = some t) (hk' : taken[k']? = some t')
    (same : t.info.id = t'.info.id) : k = k' := by
  have once : (taken.map fun t => t.info.id).Nodup :=
    nodup_iff_count_le_one.mpr fun i => Nat.le_trans (h.once i) (distinct i)
  have lt : k < (taken.map fun t => t.info.id).length := by
    rw [length_map]
    exact (List.getElem?_eq_some_iff.mp hk).1
  apply (getElem?_inj lt once).mp
  rw [getElem?_map, getElem?_map, hk, hk', Option.map_some, Option.map_some, same]

end Moves

/-- `N` and `F` number the handlers and the functions of a part as a walk from
`s` does. -/
structure Numbers (occurs : NodeId → Nat) (taken : List Stmt) (fns : List (NodeId × Term))
    (s : Collecting) (N : Statement → Nat → Prop) (F : NodeId × Term → Nat → Prop) : Prop where
  handler : ∀ {k t}, taken[k]? = some t → N t.statement (s.out.handlers.length + k)
  other : ∀ {t : Statement} {j}, N t j → 0 < occurs t.info.id → takes taken t.info.id = true
  func : ∀ {k f}, fns[k]? = some f → F f (s.out.funcs.length + k)

namespace Numbers

variable {occurs1 occurs2 : NodeId → Nat} {fns fns1 fns2 : List (NodeId × Term)}
  {taken taken1 taken2 : List Stmt}

theorem mono (h : Numbers occurs taken fns s N F) (hle : ∀ i, occurs1 i ≤ occurs i) : Numbers occurs1 taken fns s N F :=
  { h with other := fun ht hi => h.other ht (hi.trans_le (hle _)) }

theorem of_same (h : Numbers occurs taken fns s N F) (hhandlers : s'.out.handlers = s.out.handlers)
    (hfuncs : s'.out.funcs = s.out.funcs) : Numbers occurs taken fns s' N F where
  handler := by
    rw [hhandlers]
    exact h.handler
  other := h.other
  func := by
    rw [hfuncs]
    exact h.func

theorem left (h : Numbers (fun i => occurs1 i + occurs2 i) (taken1 ++ taken2) (fns1 ++ fns2) s N F)
    (distinct : ∀ i, occurs1 i + occurs2 i ≤ 1) (moves : Moves markers occurs2 fns2 s1 s2 taken2) :
    Numbers occurs1 taken1 fns1 s N F where
  handler hk := by
    apply h.handler
    rw [getElem?_append_left (List.getElem?_eq_some_iff.mp hk).1]
    exact hk
  other {t j} ht hi := by
    have either := h.other ht (hi.trans_le (Nat.le_add_right _ _))
    rw [takes_append, Bool.or_eq_true] at either
    rcases either with h | h
    · exact h
    · have := moves.occurs_of_takes h
      have := distinct t.info.id
      omega
  func hk := by
    apply h.func
    rw [getElem?_append_left (List.getElem?_eq_some_iff.mp hk).1]
    exact hk

theorem right (h : Numbers (fun i => occurs1 i + occurs2 i) (taken1 ++ taken2) (fns1 ++ fns2) s N F)
    (distinct : ∀ i, occurs1 i + occurs2 i ≤ 1) (moves : Moves markers occurs1 fns1 s s1 taken1) :
    Numbers occurs2 taken2 fns2 s1 N F where
  handler {k t} hk := by
    rw [moves.handlers_length, Nat.add_assoc]
    apply h.handler
    rw [getElem?_append_right (Nat.le_add_right _ _), Nat.add_sub_cancel_left]
    exact hk
  other {t j} ht hi := by
    have either := h.other ht (hi.trans_le (Nat.le_add_left _ _))
    rw [takes_append, Bool.or_eq_true] at either
    rcases either with h | h
    · have := moves.occurs_of_takes h
      have := distinct t.info.id
      omega
    · exact h
  func {k f} hk := by
    rw [moves.funcs_length, Nat.add_assoc]
    apply h.func
    rw [getElem?_append_right (Nat.le_add_right _ _), Nat.add_sub_cancel_left]
    exact hk

end Numbers

/-! ## Parts of a walk -/

/-- Over this part, collection leaves the stacks as they were and binds checks
to what is around them; `sites` are the expressions of the part, given what is
around it. -/
structure Situated (markers : Markers) (occurs : NodeId → Nat) (fns : List (NodeId × Term))
    (sites : List Enclosure → List (Info × List Enclosure)) (s s' : Collecting) (taken : List Stmt) :
    Prop extends Moves markers occurs fns s s' taken where
  frames : s'.funcs = s.funcs
  news : ∀ {N F around}, Numbers occurs taken fns s N F → Agrees N F s around → News N F s s' (sites around)

/-- Over these statements of a block, collection may put handlers on top of the
stack. -/
structure SituatedIn (markers : Markers) (occurs : NodeId → Nat) (fns : List (NodeId × Term))
    (ss : List Statement) (s s' : Collecting) (taken : List Stmt) :
    Prop extends Moves markers occurs fns s s' taken where
  outside : s.funcs = [] → s'.funcs = []
  inside : ∀ {frame frames top blocks}, s.funcs = frame :: frames → frame.blocks = top :: blocks →
    ∃ handlers, s'.funcs = { frame with blocks := { top with handlers } :: blocks } :: frames
  opened : ∀ {N F around block before}, Numbers occurs taken fns s N F →
    Opened N F s block before around → Opened N F s' block (before ++ ss) around ∧
      News N F s s' (sitesIn around block before ss)

variable {file : Nat} {occurs1 occurs2 : NodeId → Nat}
  {fns fns1 fns2 : List (NodeId × Term)} {taken taken1 taken2 : List Stmt}

namespace Situated

variable {around1 around2 around' : List Enclosure → List (Info × List Enclosure)}

/-- Nothing happens that matters. -/
theorem of_eq (hstmts : s'.stmts = s.stmts) (hfuncs : s'.funcs = s.funcs)
    (hchecks : s'.out.checks = s.out.checks) (hhandlers : s'.out.handlers = s.out.handlers)
    (hfns : s'.out.funcs = s.out.funcs) : Situated markers occurs [] around' s s' [] where
  toMoves := .of_eq hstmts hhandlers hfns
  frames := hfuncs
  news _ _ := .of_eq hchecks

theorem agrees (h : Situated markers occurs fns around' s s' taken) (ha : Agrees N F s around) : Agrees N F s' around :=
  ha.mono h.frames h.stmts (by rw [h.handlers_length]; omega)

theorem trans (h1 : Situated markers occurs1 fns1 around1 s s1 taken1)
    (h2 : Situated markers occurs2 fns2 around2 s1 s2 taken2)
    (distinct : ∀ i, occurs1 i + occurs2 i ≤ 1) :
    Situated markers (fun i => occurs1 i + occurs2 i) (fns1 ++ fns2)
      (fun around => around1 around ++ around2 around) s s2 (taken1 ++ taken2) where
  toMoves := h1.toMoves.trans h2.toMoves
  frames := h2.frames.trans h1.frames
  news numbers ha :=
    (h1.news (numbers.left distinct h2.toMoves) ha).trans (h2.news (numbers.right distinct h1.toMoves) (h1.agrees ha))

/-- The report of an expression binds it, or does nothing that matters. -/
theorem report (h : (collector markers file).exitExpr x position s = (.ok action, s')) :
    action = .keep ∧ Situated markers (fun _ => 0) [] (fun around => [(x.info, around)]) s s' [] := by
  obtain ⟨haction, ownership, rfl | ⟨operand, func, funcs, stmt, stmts, block, -, -, -, -, hfuncs, hstmts,
    hblock, rfl⟩⟩ := exitExpr_collector h
  · exact ⟨haction, .of_eq rfl rfl rfl rfl rfl⟩
  refine ⟨haction, .of_eq rfl rfl rfl, rfl, ?_⟩
  intro N F around numbers ha i b hb
  rw [TreeMap.get?_eq_getElem?, TreeMap.getElem?_insert] at hb
  by_cases hi : x.info.id = i
  · rw [if_pos (by simp [hi])] at hb
    obtain rfl := Option.some.inj hb
    exact .inr ⟨around, mem_singleton_self _, ha.describes hfuncs hstmts hblock rfl rfl⟩
  · rw [if_neg (by simpa using hi)] at hb
    exact .inl hb

theorem mono (h : Situated markers occurs1 fns around' s s' taken) (hle : ∀ i, occurs1 i ≤ occurs i) :
    Situated markers occurs fns around' s s' taken where
  toMoves := h.toMoves.mono hle
  frames := h.frames
  news numbers ha := h.news (numbers.mono hle) ha

/-- A function is entered, its body is walked, and it is left. -/
theorem function {sig : Signature} {func : NodeId} {body : Term}
    (h : Situated markers occurs fns (fun around => body.sites around) (s.pushFunc sig.resultSlots) s' taken) :
    Situated markers occurs ((func, sig.term) :: fns)
      (fun around => body.sites ({ func, sig := sig.term } :: around)) s s'.popFunc taken := by
  have pushed : Moves markers (fun _ => 0) [(func, sig.term)] s (s.pushFunc sig.resultSlots) [] :=
    { stmts := rfl
      once := fun i => Nat.le_refl 0
      handlers := ⟨[], by rw [append_nil]; rfl, .nil⟩
      funcs := ⟨[sig.resultSlots], rfl, .cons ⟨sig, rfl, rfl⟩ .nil⟩ }
  refine ⟨?_, ?_, ?_⟩
  · have moves := pushed.trans h.toMoves
    have : Moves markers occurs _ s s' taken := moves.mono fun i => by omega
    exact { this with }
  · show s'.funcs.tail = s.funcs
    rw [h.frames]
    rfl
  · intro N F around numbers ha
    have entered : News N F (s.pushFunc sig.resultSlots) s'
        (body.sites ({ func, sig := sig.term } :: around)) := by
      apply h.news
      · exact {
          handler := fun hk => numbers.handler hk
          other := numbers.other
          func := fun {k f} hk => by
            have := numbers.func (k := k + 1) (f := f) hk
            rw [pushed.funcs_length, length_singleton, Nat.add_assoc, Nat.add_comm 1 k]
            exact this }
      · refine ⟨_, _, rfl, ?_, .nil, nofun, .nil, nofun⟩
        exact numbers.func (k := 0) rfl
    exact entered.of_same rfl rfl

/-- An expression with its parts, up to its report. -/
theorem expr {x' : Expr} (hinfo : x'.info = x.info)
    (h : Situated markers (countAll · x.parts) ((x'.term false).function?.toList ++ functionsAll x'.parts)
      (fun around => sitesAll (enclose (x.term false) around) x.parts) s s1 taken)
    (hexit : (collector markers file).exitExpr x' position s1 = (.ok action, s')) (listed : Bool)
    (distinct : ∀ i, countAll i [x.term listed] ≤ 1) :
    action = .keep ∧ Situated markers (countAll · [x.term listed]) (functionsAll [x'.term listed])
      (fun around => sitesAll around [x.term listed]) s s' taken := by
  obtain ⟨haction, reported⟩ := report hexit
  have le : ∀ i, countAll i x.parts + 0 ≤ countAll i [x.term listed] := by
    intro i
    simp only [countAll, Expr.term, Term.count]
    omega
  have both := (h.trans reported fun i => Nat.le_trans (le i) (distinct i)).mono le
  have functions_eq : functionsAll [x'.term listed]
      = (x'.term false).function?.toList ++ functionsAll x'.parts := by
    rw [functionsAll, functionsAll, append_nil, ← x'.function?_term listed]
    exact Term.functions.eq_1 ..
  have sites_eq : ∀ around, sitesAll around [x.term listed]
      = sitesAll (enclose (x.term false) around) x.parts ++ [(x.info, around)] := by
    intro around
    rw [sitesAll, sitesAll, append_nil, enclose, ← x.function?_term listed]
    exact Term.sites.eq_1 ..
  refine ⟨haction, ?_⟩
  simp only [functions_eq, sites_eq, ← hinfo]
  rwa [append_nil, append_nil] at both

end Situated

namespace Collecting

theorem pushBlock_outside (h : s.funcs = []) : (s.pushBlock id).funcs = [] := by
  simp only [pushBlock, h]

theorem pushBlock_inside {frame : FuncFrame} {frames : List FuncFrame} (h : s.funcs = frame :: frames) :
    (s.pushBlock id).funcs = { frame with blocks := ⟨id, []⟩ :: frame.blocks } :: frames := by
  simp only [pushBlock, h]

theorem popBlock_eq (s : Collecting) : ∃ funcs, s.popBlock = { s with funcs } := by
  unfold popBlock
  split
  · exact ⟨s.funcs, rfl⟩
  · exact ⟨_, rfl⟩

end Collecting

namespace SituatedIn

/-- A block is opened, its statements are walked, and it is closed. -/
theorem block {info : Info} (h : SituatedIn markers occurs fns ss (s.pushBlock info.id) s' taken) :
    Situated markers occurs fns (fun around => sitesIn around info.id [] ss) s s'.popBlock taken := by
  have restored : s'.popBlock.funcs = s.funcs := by
    rcases hfuncs : s.funcs with _ | ⟨frame, frames⟩
    · have := h.outside (Collecting.pushBlock_outside hfuncs)
      simp only [Collecting.popBlock, this]
    · obtain ⟨handlers, hs'⟩ := h.inside (Collecting.pushBlock_inside hfuncs) rfl
      simp only [Collecting.popBlock, hs', tail_cons]
  obtain ⟨funcs, hpop⟩ := s'.popBlock_eq
  refine ⟨?_, restored, ?_⟩
  · rw [hpop]
    exact { h.toMoves with }
  · intro N F around numbers ha
    have opened : Opened N F (s.pushBlock info.id) info.id [] around := by
      cases around with
      | nil => exact Collecting.pushBlock_outside ha
      | cons e es =>
        obtain ⟨frame, frames, hfuncs, hindex, hblocks, -, falls⟩ := ha
        exact ⟨_, frames, _, _, Collecting.pushBlock_inside hfuncs, rfl, hindex, rfl, .nil, hblocks, falls⟩
    have inner := (h.opened (numbers.of_same rfl rfl) opened).2
    exact inner.of_same rfl (by rw [hpop])

/-- Between statements. -/
theorem done : SituatedIn markers occurs [] [] s s [] where
  toMoves := .of_eq rfl rfl rfl
  outside h := h
  inside {frame frames top blocks} hfuncs hblocks := by
    refine ⟨top.handlers, ?_⟩
    rw [hfuncs, ← hblocks]
  opened numbers h := by
    rw [append_nil]
    exact ⟨h, .of_eq rfl⟩

theorem trans {ts : List Statement} (h1 : SituatedIn markers occurs1 fns1 ss s s1 taken1)
    (h2 : SituatedIn markers occurs2 fns2 ts s1 s2 taken2)
    (distinct : ∀ i, occurs1 i + occurs2 i ≤ 1) :
    SituatedIn markers (fun i => occurs1 i + occurs2 i) (fns1 ++ fns2) (ss ++ ts) s s2 (taken1 ++ taken2) where
  toMoves := h1.toMoves.trans h2.toMoves
  outside h := h2.outside (h1.outside h)
  inside hfuncs hblocks := by
    obtain ⟨handlers, hs1⟩ := h1.inside hfuncs hblocks
    obtain ⟨handlers, hs2⟩ := h2.inside hs1 rfl
    exact ⟨handlers, hs2⟩
  opened numbers h := by
    obtain ⟨opened1, news1⟩ := h1.opened (numbers.left distinct h2.toMoves) h
    obtain ⟨opened2, news2⟩ := h2.opened (numbers.right distinct h1.toMoves) opened1
    rw [← append_assoc, sitesIn_append]
    exact ⟨opened2, news1.trans news2⟩

/-- A handler goes to the top of the stack. -/
theorem remove (h : (collector markers file).enterStmt t s = (.ok .remove, s')) :
    SituatedIn markers (countIn · [t.statement]) [] [t.statement] s s' [t] := by
  rcases enterStmt_collector h with ⟨h, -⟩ | ⟨-, errName, body, func, funcs, block, blocks, hmarker, -,
    hbody, hfuncs, hblocks, rfl⟩
  · cases h
  refine ⟨⟨rfl, ?_, ⟨_, rfl, .cons ⟨hmarker, hbody, rfl⟩ .nil⟩, ⟨[], by rw [append_nil], .nil⟩⟩, ?_, ?_, ?_⟩
  · intro i
    simp only [map_cons, map_nil, count_singleton, beq_iff_eq, Stmt.statement, countIn, Info.count]
    omega
  · intro houtside
    rw [houtside] at hfuncs
    cases hfuncs
  · intro frame frames top blocks' hframe htop
    rw [hfuncs] at hframe
    cases hframe
    rw [hblocks] at htop
    cases htop
    exact ⟨_, rfl⟩
  · intro N F around id before numbers opened
    refine ⟨?_, .of_eq rfl⟩
    cases around with
    | nil =>
      rw [show s.funcs = [] from opened] at hfuncs
      cases hfuncs
    | cons e es =>
      obtain ⟨frame, frames, top, blocks', hframe, htop, hindex, hid, hhandlers, hlevels, falls⟩ := opened
      rw [hfuncs] at hframe
      cases hframe
      rw [hblocks] at htop
      cases htop
      refine ⟨_, _, _, _, rfl, rfl, hindex, hid, hhandlers.handler (numbers.handler (k := 0) rfl), hlevels, ?_⟩
      rw [hblocks] at falls
      obtain ⟨falling, below⟩ := falls
      simp only [flatMap_cons] at falling below
      refine ⟨?_, ?_⟩
      · simp only [flatMap_cons, cons_append, pairwise_cons]
        exact ⟨below, falling⟩
      · intro j hj
        simp only [flatMap_cons, cons_append, mem_cons, length_append, length_singleton] at hj ⊢
        rcases hj with rfl | hj
        · omega
        · have := below j hj
          omega

/-- A statement of a block, from its entry to its exit. -/
theorem statement {ownership : Ownership}
    (h : Situated markers (countAll · t.parts) fns (fun around => sitesAll around t.parts)
      { s with out := { s.out with ownership }, stmts := t.info.id :: s.stmts } s1 taken)
    (distinct : ∀ i, countIn i [t.statement] ≤ 1) :
    SituatedIn markers (countIn · [t.statement]) fns [t.statement] s
      { s1 with stmts := s1.stmts.tail } taken := by
  have le : ∀ i, countAll i t.parts ≤ countIn i [t.statement] := by
    intro i
    simp only [Stmt.statement, countIn]
    omega
  have self : takes taken t.info.id = false := by
    by_contra hself
    have occurs := h.occurs_of_takes (Bool.of_not_eq_false hself)
    have := distinct t.info.id
    simp only [Stmt.statement, countIn, Info.count_self] at this
    omega
  refine ⟨?_, ?_, ?_, ?_⟩
  · have moves := h.toMoves.mono le
    refine { moves with stmts := ?_ }
    show s1.stmts.tail = s.stmts
    rw [h.stmts]
    rfl
  · intro houtside
    exact h.frames.trans houtside
  · intro frame frames top blocks hfuncs hblocks
    refine ⟨top.handlers, ?_⟩
    rw [show s1.funcs = s.funcs from h.frames, hfuncs, ← hblocks]
  · intro N F around block before numbers opened
    have agrees : Agrees N F { s with out := { s.out with ownership }, stmts := t.info.id :: s.stmts }
        (deepen ⟨block, before, t.statement⟩ around) := by
      cases around with
      | nil => exact opened
      | cons e es =>
        obtain ⟨frame, frames, top, blocks, hfuncs, hblocks, hindex, hid, hhandlers, hlevels, falls⟩ := opened
        refine ⟨frame, frames, hfuncs, hindex, ?_, ?_, falls⟩
        · rw [hblocks]
          exact .cons ⟨hid, hhandlers⟩ hlevels
        · rintro level levels heq
          cases heq
          rfl
    have other : ∀ j, ¬ N t.statement j := by
      intro j hj
      have occurs : 0 < countIn t.info.id [t.statement] := by
        simp only [Stmt.statement, countIn, Info.count_self]
        omega
      have : takes taken t.info.id = true := numbers.other hj occurs
      rw [self] at this
      cases this
    constructor
    · cases around with
      | nil => exact h.frames.trans opened
      | cons e es =>
        obtain ⟨frame, frames, top, blocks, hfuncs, hblocks, hindex, hid, hhandlers, hlevels, falls⟩ := opened
        refine ⟨frame, frames, top, blocks, h.frames.trans hfuncs, hblocks, hindex, hid,
          hhandlers.other other, hlevels, falls.mono ?_⟩
        show s.out.handlers.length ≤ s1.out.handlers.length
        rw [h.handlers_length]
        exact Nat.le_add_right _ _
    · have inner := h.news ((numbers.mono le).of_same rfl rfl) agrees
      have sites_eq : sitesIn around block before [t.statement]
          = sitesAll (deepen ⟨block, before, t.statement⟩ around) t.parts := by
        rw [Stmt.statement, sitesIn, sitesIn, append_nil]
      rw [sites_eq]
      exact inner.of_same rfl rfl

end SituatedIn

end Lemmas

theorem Expr.function?_eq_none (h : x.kind ≠ .funcLit) : (x.term false).function? = none := by
  cases x with
  | funcLit => exact absurd rfl h
  | ident | lit | composite | paren | selector | index | slice | typeAssert | call | unary | binary
  | keyValue | type => rfl

theorem Term.function?_group {kind : Kind} {info : Option Info} {parts : List Term}
    (h : kind ≠ .func) : (Term.group kind info parts).function? = none := by
  unfold Term.function?
  split
  · rename_i heq
    cases heq
  · rename_i heq
    cases heq
    exact absurd rfl h
  · rfl

theorem sites_fieldTerm? (around : List Enclosure) (x : Option Field) : (fieldTerm? x).sites around = [] := by
  rcases x with _ | ⟨info, names, ty, variadic, tag⟩
  · rfl
  · rw [fieldTerm?, Field.term, Term.sites]

theorem functions_fieldTerm? (x : Option Field) : (fieldTerm? x).functions = [] := by
  rcases x with _ | ⟨info, names, ty, variadic, tag⟩
  · rfl
  · rw [fieldTerm?, Field.term, Term.functions]

/-- A declared function is a function, and the rest of it is not walked. -/
theorem FuncDecl.sites_term (h : d.body = some b) (around : List Enclosure) :
    sitesAll around [d.term]
      = b.term.sites ({ func := d.info.id, sig := d.sig.term } :: around) := by
  obtain ⟨info, recv, name, ⟨params, results⟩, body⟩ := d
  obtain ⟨inner, stmts⟩ := b
  cases h
  rw [sitesAll, sitesAll, append_nil, FuncDecl.term, Term.sites]
  simp only [sitesAll, sites_fieldTerm?, Ident.term, Signature.term, Term.sites, blockTerm?,
    Block.term, enclose, Term.function?, nil_append, append_nil]

theorem FuncDecl.functions_term (h : d.body = some b) :
    functionsAll [d.term] = (d.info.id, d.sig.term) :: b.term.functions := by
  obtain ⟨info, recv, name, ⟨params, results⟩, body⟩ := d
  obtain ⟨inner, stmts⟩ := b
  cases h
  rw [functionsAll, functionsAll, append_nil, FuncDecl.term, Term.functions]
  simp only [functionsAll, functions_fieldTerm?, Ident.term, Signature.term, Term.functions,
    blockTerm?, Block.term, Term.function?, nil_append, append_nil, Option.toList_some,
    cons_append]

theorem FuncDecl.functions_bodiless (h : d.body = none) : functionsAll [d.term] = [] := by
  obtain ⟨info, recv, name, ⟨params, results⟩, body⟩ := d
  cases h
  rw [functionsAll, functionsAll, append_nil, FuncDecl.term, Term.functions]
  simp only [functionsAll, functions_fieldTerm?, Ident.term, Signature.term, Term.functions,
    blockTerm?, Term.absent, Term.function?, append_nil, Option.toList_none]

/-- So is a function literal. -/
theorem sites_funcLit (info : Info) (sig : Signature) (b : Block) (around : List Enclosure) :
    sitesAll (enclose ((Expr.funcLit info sig b).term false) around) (Expr.funcLit info sig b).parts
      = b.term.sites ({ func := info.id, sig := sig.term } :: around) := by
  obtain ⟨params, results⟩ := sig
  simp only [Expr.term, Expr.kind, Expr.info, Expr.parts, enclose, Term.function?, Signature.term,
    sitesAll, Term.sites, nil_append, append_nil]

theorem functions_funcLit (info : Info) (sig : Signature) (b : Block) :
    ((Expr.funcLit info sig b).term false).function?.toList
      ++ functionsAll (Expr.funcLit info sig b).parts = (info.id, sig.term) :: b.term.functions := by
  obtain ⟨params, results⟩ := sig
  simp only [Expr.term, Expr.kind, Expr.info, Expr.parts, Term.function?, Signature.term,
    functionsAll, Term.functions, nil_append, append_nil, Option.toList_some,
    singleton_append]

theorem functionsIn_kept (t : Stmt) :
    functionsIn (statements (({} : StmtAction).result t)) = functionsAll t.parts := by
  show functionsIn [.mk t.kind t.info t.parts] = _
  rw [functionsIn, functionsIn, append_nil]

/-- Collection over syntax in which no node stands twice binds checks to what is
around them. -/
theorem traverses_situated (markers : Markers) (file : Nat) : Traverses (collector markers file)
      (fun s x x' s' => (∀ i, countAll i x.parts ≤ 1) → ∃ taken, Situated markers (countAll · x.parts)
          ((x'.term false).function?.toList ++ functionsAll x'.parts)
          (fun around => sitesAll (enclose (x.term false) around) x.parts) s s' taken)
      (fun s ts ts' s' => (∀ i, countAll i ts ≤ 1) → ∃ taken,
        Situated markers (countAll · ts) (functionsAll ts') (fun around => sitesAll around ts) s s' taken)
      (fun s ss ss' s' => (∀ i, countIn i ss ≤ 1) → ∃ taken,
        SituatedIn markers (countIn · ss) (functionsIn ss') ss s s' taken) where
  nil _ := ⟨[], .of_eq rfl rfl rfl rfl rfl⟩
  append {ts ts' us us' s s1 s2} ht hu distinct := by
    obtain ⟨first, last, distinct'⟩ := distinct_append distinct
    obtain ⟨taken1, h1⟩ := ht first
    obtain ⟨taken2, h2⟩ := hu last
    refine ⟨taken1 ++ taken2, ?_⟩
    simp only [countAll_append, functionsAll_append, sitesAll_append]
    exact h1.trans h2 distinct'
  fixed _ := ⟨[], .of_eq rfl rfl rfl rfl rfl⟩
  group {kind info parts parts' s s'} hne h distinct := by
    obtain ⟨taken, h⟩ := h (distinct_group distinct)
    refine ⟨taken, ?_⟩
    have le : ∀ i, countAll i parts ≤ countAll i [.group kind info parts] := fun i => by
      simp [countAll, Term.count]
    simpa only [functionsAll, Term.functions, sitesAll, Term.sites, enclose,
      Term.function?_group hne, Option.toList_none, nil_append, append_nil] using h.mono le
  parts {x x' s s'} hne hkind hinfo h distinct := by
    obtain ⟨taken, h⟩ := h distinct
    refine ⟨taken, ?_⟩
    have hne' : x'.kind ≠ .funcLit := hkind ▸ hne
    simpa only [Expr.function?_eq_none hne', enclose, Expr.function?_eq_none hne, Option.toList_none,
      nil_append] using h
  literal {info sig b b' s s1 s2 s3} henter h hexit distinct := by
    cases henter
    cases hexit
    have le : ∀ i, countAll i [b.term] ≤ countAll i (Expr.funcLit info sig b).parts := by
      intro i
      simp only [Expr.parts, countAll]
      omega
    obtain ⟨taken, h⟩ := h fun i => Nat.le_trans (le i) (distinct i)
    refine ⟨taken, ?_⟩
    simp only [functions_funcLit, sites_funcLit]
    simp only [functionsAll, sitesAll, append_nil] at h
    exact h.function.mono le
  expr {x x' listed slot region action s s1 s'} hkind hinfo fits h hexit distinct := by
    obtain ⟨taken, h⟩ := h (distinct_expr distinct)
    obtain ⟨rfl, h⟩ := h.expr hinfo hexit listed distinct
    rw [exprTerms_keep]
    exact ⟨taken, h⟩
  func {d b b' s s1 s2 s3} hbody henter h hexit distinct := by
    cases henter
    cases hexit
    have le : ∀ i, countAll i [b.term] ≤ countAll i [d.term] := by
      intro i
      simp only [FuncDecl.term, countAll, Term.count, hbody, blockTerm?]
      omega
    obtain ⟨taken, h⟩ := h fun i => Nat.le_trans (le i) (distinct i)
    refine ⟨taken, ?_⟩
    have body' : ({ d with body := some b' } : FuncDecl).body = some b' := rfl
    simp only [FuncDecl.functions_term body', FuncDecl.sites_term hbody]
    simp only [functionsAll, sitesAll, append_nil] at h
    exact h.function.mono le
  bodiless {d s} hbody _ := by
    refine ⟨[], ?_⟩
    rw [FuncDecl.functions_bodiless hbody]
    exact .of_eq rfl rfl rfl rfl rfl
  block {info ss ss' s s1 s2 s3} henter h hexit distinct := by
    cases henter
    cases hexit
    obtain ⟨taken, h⟩ := h (distinct_block distinct)
    refine ⟨taken, ?_⟩
    have le : ∀ i, countIn i (statements ss) ≤ countAll i [.block info (statements ss)] := by
      intro i
      simp only [countAll, Term.count]
      omega
    simpa only [functionsAll, Term.functions, sitesAll, Term.sites, append_nil] using h.block.mono le
  done _ := ⟨[], .done⟩
  andThen {ss ss' ts ts' s s1 s2} hs ht distinct := by
    obtain ⟨first, last, distinct'⟩ := distinct_andThen distinct
    obtain ⟨taken1, h1⟩ := hs first
    obtain ⟨taken2, h2⟩ := ht last
    refine ⟨taken1 ++ taken2, ?_⟩
    simp only [countIn_append, functionsIn_append]
    exact h1.trans h2 distinct'
  removed {t s s'} henter _ := ⟨[t], .remove henter⟩
  skipped henter := absurd henter enterStmt_ne_skip
  stmt {t t' action s s1 s2 s3} hne hkind hinfo henter h hexit distinct := by
    obtain ⟨ownership, rfl⟩ := enterStmt_walk henter
    obtain ⟨taken, h⟩ := h (distinct_stmt distinct)
    cases hexit
    rw [functionsIn_kept]
    exact ⟨taken, .statement h distinct⟩
  exprStmt {i x x' action act s s1 s2 s3 s4} hkind hinfo henter h hx hexit distinct := by
    obtain ⟨ownership, rfl⟩ := enterStmt_walk henter
    have inside : ∀ i, countAll i [x.term false] ≤ 1 := distinct_stmt distinct
    obtain ⟨taken, h⟩ := h (distinct_expr inside)
    obtain ⟨rfl, h⟩ := h.expr hinfo hx false inside
    cases hexit
    rw [functionsIn_kept]
    exact ⟨taken, .statement h distinct⟩

/-! ## Chains -/

theorem exists_getElem?_of_forall₂ {α β : Type} {R : α → β → Prop} {as : List α} {bs : List β}
    (h : List.Forall₂ R as bs) {a : α} (ha : as[k]? = some a) :
    ∃ b, bs[k]? = some b ∧ R a b := by
  induction h generalizing k with
  | nil => cases ha
  | cons hab _ ih =>
    cases k with
    | zero =>
      cases ha
      exact ⟨_, rfl, hab⟩
    | succ k => exact ih ha

section Chains

variable {N : Statement → Nat → Prop}

theorem HandlersOf.mem_iff (functional : ∀ t j j', N t j → N t j' → j = j')
    {before : List Statement} {js : List Nat} (h : HandlersOf N before js) :
    j ∈ js ↔ ∃ t ∈ before, N t j := by
  induction h with
  | nil => simp
  | handler _ ht ih =>
    simp only [mem_cons, ih, mem_append, not_mem_nil, or_false]
    constructor
    · rintro (rfl | ⟨t, hmem, hN⟩)
      · exact ⟨_, .inr rfl, ht⟩
      · exact ⟨t, .inl hmem, hN⟩
    · rintro ⟨t, hmem | rfl, hN⟩
      · exact .inr ⟨t, hmem, hN⟩
      · exact .inl (functional _ _ _ hN ht)
  | other _ ht ih =>
    simp only [ih, mem_append, mem_cons, not_mem_nil, or_false]
    constructor
    · rintro ⟨t, hmem, hN⟩
      exact ⟨t, .inl hmem, hN⟩
    · rintro ⟨t, hmem | rfl, hN⟩
      · exact ⟨t, hmem, hN⟩
      · exact absurd hN (ht j)

theorem mem_chains_iff (functional : ∀ t j j', N t j → N t j' → j = j') {levels : List Level} {chains : List (List Nat)}
    (h : List.Forall₂ (fun level js => HandlersOf N level.before js) levels chains) :
    j ∈ chains.flatten ↔ ∃ level ∈ levels, ∃ t ∈ level.before, N t j := by
  induction h with
  | nil => simp
  | cons hjs _ ih =>
    rw [flatten_cons, mem_append, hjs.mem_iff functional, ih]
    simp only [mem_cons, exists_eq_or_imp]

end Chains

/-- The numbers that a walk gives to the handlers that it takes. -/
def HandlerNumber (out : Collected) (taken : List Stmt) (t : Statement) (j : Nat) : Prop :=
  ∃ k t', taken[k]? = some t' ∧ t'.statement = t ∧ j = out.handlers.length + k

/-- The numbers that it gives to functions. -/
def FunctionNumber (out : Collected) (fns : List (NodeId × Term)) (f : NodeId × Term) (j : Nat) : Prop :=
  ∃ k, fns[k]? = some f ∧ j = out.funcs.length + k

theorem numbers_start (out : Collected) (taken : List Stmt) (fns : List (NodeId × Term)) :
    Numbers occurs taken fns (⟨out, [], [], ∅, ∅⟩ : Collecting) (HandlerNumber out taken) (FunctionNumber out fns) := by
  refine ⟨fun {k t} hk => ⟨k, t, hk, rfl, rfl⟩, ?_, fun {k f} hk => ⟨k, hk, rfl⟩⟩
  rintro t j ⟨k, t', hk, rfl, rfl⟩ -
  exact any_eq_true.mpr ⟨t', mem_of_getElem? hk, beq_self_eq_true _⟩

/-- The check `b` is bound to what is around its node, where `e` is the
innermost function around it. Collection has come across the functions of
`tree'` and has made handlers of the statements `taken`, in this order. -/
structure CheckBinding.Within (b : CheckBinding) (e : Enclosure) (tree tree' : File)
    (out out' : Collected) (taken : List Stmt) : Prop where
  site : ∃ es, (⟨b.id, b.span⟩, e :: es) ∈ tree.term.sites []
  func : ∃ k, tree'.term.functions[k]? = some (e.func, e.sig) ∧ b.func = out.funcs.length + k
  results : ∃ sig : Signature, e.sig = sig.term ∧ out'.funcs[b.func]? = some sig.resultSlots
  innermost : ∃ level levels, e.levels = level :: levels ∧ b.block = level.block ∧ b.stmt = level.stmt.info.id
  /-- The chain has the handlers of the function that stand in a block around
  the check, before the statement of the block that holds the check. -/
  chain : ∀ j, j ∈ b.chain ↔ ∃ k t, j = out.handlers.length + k ∧ taken[k]? = some t ∧
    ∃ level ∈ e.levels, t.statement ∈ level.before
  /-- What is declared later comes first. -/
  latest : b.chain.Pairwise fun i j => ∃ h h', out'.handlers[i]? = some h ∧
    out'.handlers[j]? = some h' ∧ h'.span.start < h.span.start

variable {taken : List Stmt} {file : Nat}

theorem Markers.starts_eq_of_turns {new : List Handler} (turns : List.Forall₂ markers.Turns taken new) :
    (new.map fun h => h.span.start) = taken.map fun t => t.info.span.start := by
  induction turns with
  | nil => rfl
  | cons turn _ ih => rw [map_cons, map_cons, ih, turn.2.2]

/-- Handlers follow the statements that they are made of in the text. -/
theorem Tied.handlers_ascend {ts : List Term} {after : List Term}
    {inside : List Statement} {level : NodeId → Prop} {s s' : Collecting} {added : List CheckBinding} {hi : Nat}
    (h : Tied markers file occurs (walkedAll ts) after inside level s s' added taken)
    (order : Ascends 0 hi (starts ts)) :
    ∃ new, s'.out.handlers = s.out.handlers ++ new ∧ (new.map fun h => h.span.start).Pairwise (· < ·) := by
  obtain ⟨new, hnew, turns⟩ := h.handlers
  refine ⟨new, hnew, ?_⟩
  rw [Markers.starts_eq_of_turns turns]
  exact h.ascending order

/-- A handler in a function and one in a block of it; checks in the block, in a
literal there, and after the block. -/
def nestedHandlers : String :=
  "package p\nfunc f() \x7b\nhandle d \x7b\x7d\nif c \x7b\nhandle e \x7b\x7d\n"
    ++ "check g(func() \x7b check h() \x7d)\n\x7d\ncheck k()\n\x7d\n"

end CheckHandle
