import CheckHandle.Proofs.Offsets

/-!
# Which words become markers

A word `check` becomes a marker unless it is a selector or the name that a
handler gives to its error. Main statement: the map of a lowered text is a
bijection from its checks to those words.
-/

namespace CheckHandle

open Std Text List

variable {i o : Nat} {t : Token} {cs : List Char} {k : MarkerKind} {e : Edit} {m : Marker} {p : Placement}

/-! ## Words of a source -/

/-- The word at place `i` is the keyword of a marker, and no dot is before it. -/
def MarkedAt (tokens : List Token) (k : MarkerKind) (i : Nat) (t : Token) : Prop :=
  tokens[i]? = some t ∧ t.isIdent k.keyword = true ∧ ∀ j d, i = j + 1 → tokens[j]? = some d → d.isOperator "." = false

/-- Tokens end before the next ones start. -/
abbrev InOrder (tokens : List Token) : Prop := tokens.Pairwise fun a b => a.span.stop ≤ b.span.start

theorem InOrder.stop_le {tokens : List Token} (h : InOrder tokens) {j : Nat} {u : Token}
    (ht : tokens[i]? = some t) (hu : tokens[j]? = some u) (lt : i < j) : t.span.stop ≤ u.span.start := by
  obtain ⟨hi, rfl⟩ := List.getElem?_eq_some_iff.mp ht
  obtain ⟨hj, rfl⟩ := List.getElem?_eq_some_iff.mp hu
  exact pairwise_iff_getElem.mp h _ _ hi hj lt

theorem TokensFrom.ordered {lo : Nat} {ts : List Token} (h : TokensFrom cs lo ts) :
    (∀ t ∈ ts, lo ≤ t.span.start) ∧ InOrder ts := by
  induction ts generalizing lo with
  | nil => exact ⟨nofun, .nil⟩
  | cons t ts ih =>
    obtain ⟨behind, rest⟩ := ih h.2
    refine ⟨forall_mem_cons.mpr ⟨h.1.lower, fun u hu => ?_⟩, .cons behind rest⟩
    exact Nat.le_trans (Nat.le_trans h.1.lower h.1.ordered) (behind u hu)

namespace Lowering

/-! ## What has been noted on the way -/

/-- The words of which the text from `start` to `stop` makes a marker. -/
def Site (tokens : List Token) (start stop : Nat) : Marker → Prop
  | .check => ∃ i t, MarkedAt tokens .check i t ∧ start = t.span.start ∧ t.span.stop ≤ stop
  | .handle name => ∃ i k t, MarkedAt tokens .handle i k ∧ tokens[i + 1]? = some t ∧ start = k.span.start ∧
    stop = t.span.stop ∧ t.text = name

/-- The keyword of a handler whose header is being read stands before place `n`. -/
def HeaderAt (tokens : List Token) (n : Nat) : HandleState → Prop
  | .wantsName k => ∃ j, n = j + 1 ∧ MarkedAt tokens .handle j k
  | .wantsBrace k t => ∃ j, n = j + 2 ∧ MarkedAt tokens .handle j k ∧ tokens[j + 1]? = some t
  | _ => True

/-- The keyword before place `i` is that of a handler which has been noted. -/
def NamedAt (tokens : List Token) (s : Lowering) (i : Nat) : Prop :=
  ∃ j k e name, i = j + 1 ∧ MarkedAt tokens .handle j k ∧ (e, .handle name) ∈ s.noted ∧ e.start = k.span.start

/-- The word `check` at place `i` has been noted as a check or as the name of a
handler, or is the name of the header that is being read at place `n`. -/
def Found (tokens : List Token) (n : Nat) (s : Lowering) (i : Nat) (t : Token) : Prop :=
  (∃ e, (e, .check) ∈ s.noted ∧ e.start = t.span.start) ∨ NamedAt tokens s i ∨ n = i + 1 ∧ s.handler.isOpen = false

/-- The state after the first `n` tokens: the edits with markers come from the
words that are marked, and every word `check` among these tokens is accounted
for. Where no word is marked, nothing is edited. -/
structure Reached (tokens : List Token) (n : Nat) (s : Lowering) : Prop where
  dot : s.afterDot = true ↔ ∃ j d, n = j + 1 ∧ tokens[j]? = some d ∧ d.isOperator "." = true
  calm : (∀ k i t, ¬ MarkedAt tokens k i t) → s.handler = .idle ∧ s.checks = [] ∧ s.edits = []
  header : HeaderAt tokens n s.handler
  sites : ∀ p ∈ s.noted, Site tokens p.1.start p.1.stop p.2
  found : ∀ i t, i < n → MarkedAt tokens .check i t → Found tokens n s i t

variable {tokens ts : List Token} {n : Nat} {s s' final : Lowering}

theorem Reached.isMarker_iff (h : Reached tokens n s) (ht : tokens[n]? = some t) (k : MarkerKind) :
    s.isMarker t k = true ↔ MarkedAt tokens k n t := by
  have dot : s.afterDot = false ↔ ∀ j d, n = j + 1 → tokens[j]? = some d → d.isOperator "." = false := by
    rw [← Bool.not_eq_true, h.dot]
    grind
  simp only [isMarker, Bool.and_eq_true, Bool.not_eq_true', dot, MarkedAt, ht, true_and]

theorem HeaderAt.of_isOpen {header : HandleState} (h : header.isOpen = true) : HeaderAt tokens n header := by
  cases header <;> simp_all [HeaderAt, HandleState.isOpen]

/-- Where no word is marked, a token changes nothing. -/
theorem Reached.calm_step (h : Reached tokens n s) (ht : tokens[n]? = some t)
    (hstep : s.step t tokens[n + 1]? = .ok s') (unmarked : ∀ k i t, ¬ MarkedAt tokens k i t) :
    s'.handler = .idle ∧ s'.checks = [] ∧ s'.edits = [] := by
  obtain ⟨idle, checks, edits⟩ := h.calm unmarked
  have other : ∀ k, s.isMarker t k = false := fun k =>
    Bool.eq_false_iff.mpr fun marker => unmarked k n t ((h.isMarker_iff ht k).mp marker)
  have same : s.close t = s := by
    cases s
    simp_all [close]
  simp only [Lowering.step, idle, same, checks, stepPlain, other, refuseReserved, bind, Except.bind, pure,
    Except.pure] at hstep
  grind [consume]

/-- What has been found stays so when more is noted: a header that was being read
has to be named now, and a word `check` to be noted or to be a name. -/
theorem Reached.found_step (h : Reached tokens n s) (ht : tokens[n]? = some t) (more : ∀ p ∈ s.noted, p ∈ s'.noted)
    (named : ∀ i u, n = i + 1 → MarkedAt tokens .check i u → s.handler.isOpen = false → NamedAt tokens s' i)
    (here : s.isMarker t .check = true →
      (∃ e, (e, .check) ∈ s'.noted ∧ e.start = t.span.start) ∨ s'.handler.isOpen = false) :
    ∀ i u, i < n + 1 → MarkedAt tokens .check i u → Found tokens (n + 1) s' i u := by
  intro i u hi marked
  rcases Nat.lt_succ_iff_lt_or_eq.mp hi with hi | rfl
  · rcases h.found i u hi marked with ⟨e, he, hstart⟩ | ⟨j, k, e, name, hj, hk, he, hstart⟩ | ⟨hn, opened⟩
    · exact .inl ⟨e, more _ he, hstart⟩
    · exact .inr (.inl ⟨j, k, e, name, hj, hk, more _ he, hstart⟩)
    · exact .inr (.inl (named i u hn marked opened))
  · obtain rfl : t = u := Option.some.inj (ht.symm.trans marked.1)
    exact (here ((h.isMarker_iff ht .check).mpr marked)).imp_right fun opened => .inr ⟨rfl, opened⟩

/-- **One token.** -/
theorem Reached.step (ordered : InOrder tokens) (h : Reached tokens n s)
    (ht : tokens[n]? = some t) (hstep : s.step t tokens[n + 1]? = .ok s') : Reached tokens (n + 1) s' := by
  obtain ⟨-, -, dot, steps⟩ := step_steps hstep
  have dot' : s'.afterDot = true ↔ ∃ j d, n + 1 = j + 1 ∧ tokens[j]? = some d ∧ d.isOperator "." = true := by
    rw [dot]
    grind
  have calm := h.calm_step ht hstep
  have open? : s.handler.isOpen = true → ∀ i u, n = i + 1 → MarkedAt tokens .check i u → s.handler.isOpen = false →
      NamedAt tokens s' i := by
    intro opened i u _ _ closed
    rw [opened] at closed
    cases closed
  have add : ∀ {p : Edit × Marker}, s'.noted = s.noted ++ [p] → Site tokens p.1.start p.1.stop p.2 →
      ∀ q ∈ s'.noted, Site tokens q.1.start q.1.stop q.2 := by
    intro p noted site
    rw [noted]
    exact forall_mem_append.mpr ⟨h.sites, forall_mem_singleton.mpr site⟩
  cases steps with
  | keep _ before after _ other noted | error before after _ _ other noted =>
    refine ⟨dot', calm, .of_isOpen after, noted ▸ h.sites, h.found_step ht (fun _ => noted ▸ id) (open? before)
      fun marked => ?_⟩
    rw [other] at marked
    cases marked
  | check _ first before after _ hnext _ _ marker noted =>
    have marked := (h.isMarker_iff ht .check).mp marker
    have behind := ordered.stop_le ht hnext (Nat.lt_succ_self n)
    refine ⟨dot', calm, .of_isOpen after, add noted ⟨n, t, marked, rfl, behind⟩, h.found_step ht ?_
      (open? before) fun _ => .inl ?_⟩
    · exact fun p hp => noted ▸ mem_append_left _ hp
    · exact ⟨_, noted ▸ mem_append_right _ (mem_singleton_self _), rfl⟩
  | handle _ before after _ _ other marker noted =>
    refine ⟨dot', calm, ?_, noted ▸ h.sites, h.found_step ht (fun _ => noted ▸ id) (open? before)
      fun marked => ?_⟩
    · rw [after]
      exact ⟨n, rfl, (h.isMarker_iff ht .handle).mp marker⟩
    · rw [other] at marked
      cases marked
  | name keyword before after _ _ noted =>
    have header := h.header
    rw [before] at header
    obtain ⟨j, rfl, marked⟩ := header
    refine ⟨dot', calm, ?_, noted ▸ h.sites, h.found_step ht (fun _ => noted ▸ id)
      (fun i u hi check _ => ?_) fun _ => .inr ?_⟩
    · rw [after]
      exact ⟨j, rfl, marked, ht⟩
    · -- A word is not the keyword of both markers.
      obtain rfl := Nat.succ.inj hi
      obtain rfl := Option.some.inj (marked.1.symm.trans check.1)
      have := marked.2.1
      have := check.2.1
      simp_all [Token.isIdent, MarkerKind.keyword]
    · rw [after]
      rfl
  | brace keyword name before after operator _ noted =>
    have header := h.header
    rw [before] at header
    obtain ⟨j, rfl, marked, hname⟩ := header
    have added := noted ▸ mem_append_right s.noted (mem_singleton_self _)
    refine ⟨dot', calm, .of_isOpen after, add noted ⟨j, keyword, name, marked, hname, rfl, rfl, rfl⟩,
      h.found_step ht (fun p hp => noted ▸ mem_append_left _ hp) (fun i u hi _ _ => ?_) fun check => ?_⟩
    · exact ⟨j, keyword, _, _, (Nat.succ.inj hi).symm, marked, added, rfl⟩
    · simp [isMarker, Token.isIdent, operator] at check

/-- **All tokens.** -/
theorem Reached.run (ordered : InOrder tokens) (h : Reached tokens n s)
    (rest : tokens.drop n = ts) (hrun : s.run ts = .ok final) : Reached tokens (n + ts.length) final := by
  induction ts generalizing n s with
  | nil =>
    cases hrun
    exact h
  | cons t ts ih =>
    obtain ⟨s', hstep, hrun⟩ := run_cons hrun
    have ht : tokens[n]? = some t := by rw [← head?_drop, rest, head?_cons]
    have rest' : tokens.drop (n + 1) = ts := by rw [← tail_drop, rest, tail_cons]
    rw [← rest', head?_drop] at hstep
    rw [length_cons, ← Nat.add_assoc, Nat.add_right_comm]
    exact ih (h.step ordered ht hstep) rest' hrun

end Lowering

/-! ## Markers of a lowered text -/

/-- The word at place `i` is the name that a handler of the lowered text gives to
its error. -/
def Lowered.Names (l : Lowered) (tokens : List Token) (i : Nat) : Prop :=
  ∃ j k o, i = j + 1 ∧ MarkedAt tokens .handle j k ∧ o ∈ l.markers.handles ∧ l.offsets.toSource o = k.span.start

/-- Where the words `check` start that stand for themselves. -/
def Lowered.checkStarts (l : Lowered) (tokens : List Token) : Set Nat :=
  {n | ∃ i t, MarkedAt tokens .check i t ∧ ¬ l.Names tokens i ∧ t.span.start = n}

variable {source : String} {l : Lowered} {tokens : List Token}

theorem keyword_long (stand : ∀ t ∈ tokens, t.StandsIn cs)
    (ht : tokens[i]? = some t) (h : t.isIdent k.keyword = true) : t.span.start < t.span.stop := by
  have text : t.text = k.keyword := by
    rw [Token.isIdent, Bool.and_eq_true, beq_iff_eq, beq_iff_eq] at h
    exact h.2
  have long : 0 < byteLength t.text.toList := by
    rw [text]
    cases k <;> decide
  obtain ⟨_, _, _, _, stop⟩ := stand t (mem_of_getElem? ht)
  omega

/-! ### Where markers come from -/

section Noted

variable {final : Lowering} (hrun : Lowering.run {} (scan .marked source).tokens = .ok final)
  (hfinish : final.finish source = .ok l)

include hrun hfinish

theorem placements_aligned :
    Aligned (byteLength source.toList) (byteLength l.text.toList) 0 0 l.offsets.placements := by
  obtain ⟨placed, -, happlied, -⟩ := Lowering.finish_ok hfinish
  obtain ⟨htext, hplacements⟩ := Prod.mk.inj happlied
  have cuts := run_cuts hrun
  have apart := ((misplacedEdit?_eq_none_iff cuts).mp placed).2
  have aligned := applyEditsFrom_aligned (cutAt_zero source.toList) cuts (fun _ _ => Nat.zero_le _) apart 0
  rwa [Nat.zero_add, ← htext, ← hplacements] at aligned

/-- The offset of a marker leads to the start of the edit that places it. -/
theorem placed_toSource (hmem : ((e, some m), p) ∈ final.edits.reverse.zip l.offsets.placements) :
    p.sourceStart = e.start ∧ p.sourceStop = e.stop ∧ l.offsets.toSource p.loweredStart = e.start := by
  obtain ⟨-, hplacements⟩ := Prod.mk.inj (Lowering.finish_ok hfinish).2.2.1
  obtain ⟨start, stop, length⟩ := placement_of_mem_zip (hplacements ▸ Lowering.written_placed hmem)
  have noted := Lowering.mem_noted.mpr (of_mem_zip hmem).1
  have fits := Lowering.run_fitting (s := {}) nofun hrun _ noted
  have long : 0 < byteLength e.replacement.toList := by
    rw [fits]
    dsimp only
    cases m.kind <;> decide
  dsimp only at start stop length
  refine ⟨start, stop, ?_⟩
  rw [OffsetMap.toSource, (placements_aligned hrun hfinish).sourceOffsetFrom_placed (of_mem_zip hmem).2
    .refl (by omega), start, Nat.sub_self, Nat.zero_min, Nat.add_zero]

section Sites

variable (sites : ∀ p ∈ final.noted, Lowering.Site tokens p.1.start p.1.stop p.2)

include sites

theorem marker_site (marked : l.markers.At k o) : ∃ m, ∃ p ∈ l.offsets.placements, m.kind = k ∧ p.loweredStart = o ∧
      l.offsets.toSource o = p.sourceStart ∧ Lowering.Site tokens p.sourceStart p.sourceStop m := by
  obtain ⟨e, m, p, hmem, hkind, rfl⟩ := (Lowering.finish_at hfinish).mp marked
  have site := sites _ (Lowering.mem_noted.mpr (of_mem_zip hmem).1)
  obtain ⟨start, stop, leads⟩ := placed_toSource hrun hfinish hmem
  refine ⟨m, p, (of_mem_zip hmem).2, hkind, rfl, leads.trans start.symm, ?_⟩
  rwa [start, stop]

theorem check_site (ho : o ∈ l.markers.checks) : ∃ p ∈ l.offsets.placements, p.loweredStart = o ∧
    l.offsets.toSource o = p.sourceStart ∧ Lowering.Site tokens p.sourceStart p.sourceStop .check := by
  obtain ⟨m, p, hp, hkind, facts⟩ := marker_site hrun hfinish sites (k := .check) ho
  cases m with
  | check => exact ⟨p, hp, facts⟩
  | handle => cases hkind

theorem handle_site (ho : o ∈ l.markers.handles) : ∃ p ∈ l.offsets.placements, ∃ name,
    l.offsets.toSource o = p.sourceStart ∧ Lowering.Site tokens p.sourceStart p.sourceStop (.handle name) := by
  obtain ⟨m, p, hp, hkind, -, facts⟩ := marker_site hrun hfinish sites (k := .handle) ho
  cases m with
  | check => cases hkind
  | handle name => exact ⟨p, hp, name, facts⟩

/-- The name of a handler is replaced together with its keyword, so no check is
placed at it. -/
theorem not_names_of_placed (stand : ∀ t ∈ tokens, t.StandsIn cs) (ordered : InOrder tokens)
    (hp : p ∈ l.offsets.placements)
    (marked : MarkedAt tokens .check i t) (hstart : p.sourceStart = t.span.start) (hstop : t.span.stop ≤ p.sourceStop) :
    ¬ l.Names tokens i := by
  rintro ⟨j, k, o, rfl, hk, ho, leads⟩
  obtain ⟨p', hp', name, leads', j', k', t', hk', ht', hstart', hstop', -⟩ := handle_site hrun hfinish sites ho
  have long := keyword_long stand marked.1 marked.2.1
  have apart := (placements_aligned hrun hfinish).eq_or_apart hp hp'
  have := ordered.stop_le hk.1 marked.1 (Nat.lt_succ_self j)
  have := keyword_long stand hk.1 hk.2.1
  rcases Nat.lt_trichotomy j j' with lt | rfl | lt
  · have := ordered.stop_le hk.1 hk'.1 lt
    omega
  · obtain rfl := Option.some.inj (marked.1.symm.trans ht')
    rcases apart with rfl | apart | apart <;> omega
  · have := ordered.stop_le hk'.1 hk.1 lt
    have := keyword_long stand hk'.1 hk'.2.1
    omega

end Sites

theorem noted_marker (noted : (e, m) ∈ final.noted) :
    ∃ o, l.markers.At m.kind o ∧ l.offsets.toSource o = e.start := by
  obtain ⟨-, hplacements⟩ := Prod.mk.inj (Lowering.finish_ok hfinish).2.2.1
  have length : l.offsets.placements.length = final.edits.reverse.length := by
    have := congrArg length (map_placements source.toList 0 0 final.written)
    simpa [hplacements, Lowering.written] using this
  obtain ⟨i, hi, hedit⟩ := mem_iff_getElem.mp (Lowering.mem_noted.mp noted)
  have hi' : i < l.offsets.placements.length := length ▸ hi
  have hmem : ((e, some m), l.offsets.placements[i]) ∈ final.edits.reverse.zip l.offsets.placements := by
    rw [← hedit]
    exact mem_iff_getElem.mpr ⟨i, by rw [length_zip]; omega, getElem_zip⟩
  exact ⟨_, (Lowering.finish_at hfinish).mpr ⟨e, m, _, hmem, rfl, rfl⟩, (placed_toSource hrun hfinish hmem).2.2⟩

/-- A check that is not the name of a handler has been noted. -/
theorem check_noted (nofault : (scan .marked source).fault = none)
    (reached : Lowering.Reached (scan .marked source).tokens (scan .marked source).tokens.length final)
    (marked : MarkedAt (scan .marked source).tokens .check i t) (unnamed : ¬ l.Names (scan .marked source).tokens i) :
    ∃ e, (e, .check) ∈ final.noted ∧ e.start = t.span.start := by
  have last := (scan_stands nofault).2
  obtain ⟨hi, -⟩ := List.getElem?_eq_some_iff.mp marked.1
  rcases reached.found i t hi marked with noted | ⟨j, k, e, name, rfl, hk, noted, start⟩ | ⟨hn, -⟩
  · exact noted
  · obtain ⟨o, ho, leads⟩ := noted_marker hrun hfinish noted
    exact absurd ⟨j, k, o, rfl, hk, ho, leads.trans start⟩ unnamed
  · -- The last token is the end, which is no word.
    have ident := marked.2.1
    rw [getLast?_eq_getElem?, hn, Nat.add_sub_cancel] at last
    obtain rfl := Option.some.inj (marked.1.symm.trans last)
    cases ident

end Noted

/-- **Markers are complete and exact.** The map leads from the checks, one to
one, to the words that stand for themselves, and from a handler to its keyword;
each marker is read at its offset; and a source without such words is left as it
is. -/
theorem lower_marking (h : lower source = .ok l) :
    Set.BijOn l.offsets.toSource {o | o ∈ l.markers.checks} (l.checkStarts (scan .marked source).tokens) ∧
    (∀ k o, l.markers.At k o →
      ∃ before after, l.text.toList = before ++ (k.text.toList ++ after) ∧ byteLength before = o) ∧
    (∀ o ∈ l.markers.handles, ∃ i k, MarkedAt (scan .marked source).tokens .handle i k ∧
      l.offsets.toSource o = k.span.start) ∧
    ((∀ k i t, ¬ MarkedAt (scan .marked source).tokens k i t) → l.edits = [] ∧ l.text = source) := by
  obtain ⟨nofault, final, hrun, hfinish⟩ := lower_ok h
  have stand := (scan_stands nofault).1
  have ordered := (scan_inside .marked source).tokens.ordered.2
  have start : Lowering.Reached (scan .marked source).tokens 0 {} :=
    ⟨by simp, fun _ => ⟨rfl, rfl, rfl⟩, trivial, nofun, nofun⟩
  have reached := start.run ordered drop_zero hrun
  rw [Nat.zero_add] at reached
  refine ⟨⟨fun o ho => ?_, fun o ho o' ho' same => ?_, ?_⟩, fun k o => lower_marks h, fun o ho => ?_, fun unmarked => ?_⟩
  · obtain ⟨p, hp, -, leads, i, t, marked, hstart, hstop⟩ := check_site hrun hfinish reached.sites ho
    have unnamed := not_names_of_placed hrun hfinish reached.sites stand ordered hp marked hstart hstop
    exact ⟨i, t, marked, unnamed, by rw [leads, hstart]⟩
  · obtain ⟨p, hp, rfl, leads, i, t, marked, hstart, hstop⟩ := check_site hrun hfinish reached.sites ho
    obtain ⟨p', hp', rfl, leads', i', t', marked', hstart', hstop'⟩ := check_site hrun hfinish reached.sites ho'
    have := keyword_long stand marked.1 marked.2.1
    have := keyword_long stand marked'.1 marked'.2.1
    rcases (placements_aligned hrun hfinish).eq_or_apart hp hp' with rfl | apart | apart
    · rfl
    · omega
    · omega
  · rintro _ ⟨i, t, marked, unnamed, rfl⟩
    obtain ⟨e, noted, start⟩ := check_noted hrun hfinish nofault reached marked unnamed
    obtain ⟨o, ho, leads⟩ := noted_marker hrun hfinish noted
    exact ⟨o, ho, leads.trans start⟩
  · obtain ⟨p, -, name, leads, i, k, t, hk, -, hstart, -⟩ := handle_site hrun hfinish reached.sites ho
    exact ⟨i, k, hk, leads.trans hstart⟩
  · obtain ⟨-, hedits, happlied, -⟩ := Lowering.finish_ok hfinish
    have none : final.written = [] := by simp [Lowering.written, (reached.calm unmarked).2.2]
    rw [none] at hedits happlied
    have whole := dropBytes_byteLength [] source.toList
    exact ⟨hedits, String.toList_inj.mp ((Prod.mk.inj happlied).1.trans whole)⟩

/-- The name of a handler, a check in a check, and a selector. -/
def checkWords : String := "func g() \x7b handle check \x7b \x7d; check f(check h(), x.check) \x7d"

theorem lower_marking_checkWords : ∃ l, lower checkWords = .ok l ∧
    l.markers.checks.toList.map l.offsets.toSource = [29, 37] ∧
    Set.BijOn l.offsets.toSource {o | o ∈ l.markers.checks} (l.checkStarts (scan .marked checkWords).tokens) := by
  have starts : (lower checkWords).toOption.map (fun l => l.markers.checks.toList.map l.offsets.toSource) =
      some [29, 37] := by
    decide +kernel
  cases hl : lower checkWords with
  | error fault =>
    rw [hl] at starts
    cases starts
  | ok l =>
    rw [hl] at starts
    exact ⟨l, rfl, Option.some.inj starts, (lower_marking hl).1⟩

end CheckHandle
