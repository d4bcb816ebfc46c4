import CheckHandle.Command.Run
import CheckHandle.Proofs.Collecting

/-!
# Results beside their sources

An expansion writes its results into the directory that it reads. What it writes
there has the extension of a plain file, but it is the result of a marked file of
the directory, so discovery leaves it out: the package is the same as before, and
another run writes the same texts to the same places.
-/

namespace CheckHandle

open List

variable {name w dir : String} {r : Location} {f : SourceFile} {inputs : List SourceInput} {files : List SourceFile}
  {p : Package} {i : SourceInput}

/-! ## Paths in a directory -/

namespace Text

theorem splitChars_ne_nil (separator : Char) (cs : List Char) : splitChars separator cs ≠ [] := by
  fun_cases splitChars separator cs <;> simp

theorem splitChars_append (separator : Char) (as bs : List Char) :
    splitChars separator (as ++ separator :: bs) = splitChars separator as ++ splitChars separator bs := by
  induction as with
  | nil => simp [splitChars]
  | cons c as ih =>
    obtain ⟨part, parts, hparts⟩ := exists_cons_of_ne_nil (splitChars_ne_nil separator as)
    by_cases hc : (c == separator) = true <;> simp [splitChars, hc, ih, hparts]

theorem splitChars_of_not_mem {separator : Char} {cs : List Char} (h : separator ∉ cs) :
    splitChars separator cs = [cs] := by
  induction cs with
  | nil => rfl
  | cons c cs ih =>
    obtain ⟨hc, hcs⟩ := not_or.mp (mt mem_cons.mpr h)
    simp [splitChars, beq_false_of_ne (Ne.symm hc), ih hcs]

end Text

namespace Path

/-- A name that an entry of a directory can have. -/
def IsName (name : String) : Prop := name ≠ "" ∧ '/' ∉ name.toList ∧ name ≠ "." ∧ name ≠ ".."

instance (name : String) : Decidable (IsName name) := inferInstanceAs (Decidable (_ ∧ _ ∧ _ ∧ _))

/-- What stands before the names in the paths of a directory. -/
def lead (dir : String) : List Char :=
  if dir.isEmpty || dir.toList.getLast? == some '/' then dir.toList else dir.toList ++ ['/']

theorem toList_join (dir name : String) : (join dir name).toList = lead dir ++ name.toList := by
  unfold join lead
  split <;> simp

theorem join_injective (dir : String) : Function.Injective (join dir) := by
  intro m n h
  have lists := congrArg String.toList h
  rw [toList_join, toList_join] at lists
  exact String.toList_inj.mp (append_cancel_left lists)

theorem lead_cases (given : dir ≠ "") :
    ∃ cs, lead dir = cs ++ ['/'] ∧ (dir.toList = cs ∨ dir.toList = cs ++ ['/']) := by
  have full : dir.isEmpty = false := by simpa using given
  unfold lead
  split
  · rename_i h
    rw [full, Bool.false_or, beq_iff_eq] at h
    obtain ⟨cs, hcs⟩ := getLast?_eq_some_iff.mp h
    exact ⟨cs, hcs, .inr hcs⟩
  · exact ⟨dir.toList, rfl, .inl rfl⟩

/-- The parts of the paths of a directory: those of the directory and the name. -/
theorem parts_join (given : dir ≠ "") : ∃ ps, (parts dir = ps ∨ parts dir = ps ++ [""]) ∧
    ∀ name, '/' ∉ name.toList → parts (join dir name) = ps ++ [name] := by
  obtain ⟨cs, hlead, hdir⟩ := lead_cases given
  refine ⟨(Text.splitChars '/' cs).map String.ofList, ?_, fun name plain => ?_⟩
  · rcases hdir with hdir | hdir
    · exact .inl (by rw [parts, Text.split, hdir])
    · refine .inr ?_
      rw [parts, Text.split, hdir, Text.splitChars_append, map_append]
      rfl
  · rw [parts, Text.split, toList_join, hlead, append_assoc]
    change (Text.splitChars '/' (cs ++ '/' :: name.toList)).map String.ofList = _
    rw [Text.splitChars_append, Text.splitChars_of_not_mem plain, map_append]
    simp

theorem splitName_join (given : dir ≠ "") (h : IsName name) : splitName (join dir name) = (lead dir, name.toList) := by
  obtain ⟨cs, hlead, -⟩ := lead_cases given
  obtain ⟨full, plain, dot, -⟩ := h
  have plain' : ∀ c ∈ name.toList.reverse, (c != '/') = true := fun c hc => by
    simpa using fun (e : c = '/') => plain (e ▸ mem_reverse.mp hc)
  -- Nothing is dropped at the end: a name is no single dot.
  have kept : dropTail (name.toList.reverse ++ '/' :: cs.reverse) = name.toList.reverse ++ '/' :: cs.reverse := by
    cases hrev : name.toList.reverse with
    | nil => exact absurd (String.toList_eq_nil_iff.mp (reverse_eq_nil_iff.mp hrev)) full
    | cons c rest =>
      have hc : c ≠ '/' := by simpa using plain' c (by simp [hrev])
      rw [cons_append]
      by_cases hdot : c = '.'
      · subst hdot
        cases rest with
        | nil =>
          refine absurd (String.toList_inj.mp ?_) dot
          rw [← reverse_reverse name.toList, hrev]
          rfl
        | cons c' rest =>
          have hc' : c' ≠ '/' := by simpa using plain' c' (by simp [hrev])
          simp [dropTail, hc']
      · rw [dropTail]
        · exact fun _ e => hc (List.cons.inj e).1
        · exact fun _ e => hdot (List.cons.inj e).1
  unfold splitName
  rw [toList_join, hlead]
  simp only [reverse_append, reverse_cons, nil_append, append_assoc, cons_append, kept]
  rw [takeWhile_append_of_pos plain', dropWhile_append_of_pos plain']
  simp

theorem fileName?_join (given : dir ≠ "") (h : IsName name) : fileName? (join dir name) = some name.toList := by
  obtain ⟨full, -, dot, dots⟩ := id h
  have differs {s : String} (ne : name ≠ s) : (name.toList == s.toList) = false :=
    beq_false_of_ne fun e => ne (String.toList_inj.mp e)
  have full' : name.toList.isEmpty = false := by simpa using full
  have dot' : (name.toList == ['.']) = false := differs dot
  have dots' : (name.toList == ['.', '.']) = false := differs dots
  simp only [fileName?, splitName_join given h, full', dot', dots', Bool.or_self, Bool.false_eq_true, if_false]

theorem splitExtension_eq_some {name stem ext : List Char} :
    splitExtension name = some (stem, ext) ↔ name = stem ++ '.' :: ext ∧ '.' ∉ ext ∧ stem ≠ [] := by
  have plain {cs : List Char} (h : '.' ∉ cs) : ∀ c ∈ cs, (c != '.') = true := fun c hc => by
    simpa using fun (e : c = '.') => h (e ▸ hc)
  constructor
  · intro h
    simp only [splitExtension] at h
    split at h
    · cases h
    · rename_i stem' ne
      cases h
      have whole := takeWhile_append_dropWhile (p := (· != '.')) (l := name.reverse)
      have before : ∀ c ∈ name.reverse.takeWhile (· != '.'), (c != '.') = true := all_eq_true.mp all_takeWhile
      have dot := head?_dropWhile_not (· != '.') name.reverse
      generalize name.reverse.takeWhile (· != '.') = ext, name.reverse.dropWhile (· != '.') = rest at *
      cases rest with
      | nil => exact absurd rfl ne
      | cons c rest =>
        obtain rfl : c = '.' := by simpa using dot
        refine ⟨?_, fun mem => ?_, by simpa using ne⟩
        · rw [← reverse_reverse name, ← whole]
          simp
        · simpa using before _ (mem_reverse.mp mem)
  · rintro ⟨rfl, hext, hstem⟩
    have hext' : ∀ c ∈ ext.reverse, (c != '.') = true := fun c hc => plain hext c (mem_reverse.mp hc)
    simp only [splitExtension, reverse_append, reverse_cons, append_assoc, singleton_append]
    rw [takeWhile_append_of_pos hext', dropWhile_append_of_pos hext']
    cases hrev : stem.reverse with
    | nil => exact absurd (reverse_eq_nil_iff.mp hrev) hstem
    | cons c rest =>
      have stem_eq : stem = rest.reverse ++ [c] := by
        rw [← reverse_reverse stem, hrev, reverse_cons]
      simp [stem_eq]

theorem extension?_join (given : dir ≠ "") (h : IsName name) {ext : String} : extension? (join dir name) = some ext ↔
      ∃ stem, name.toList = stem ++ '.' :: ext.toList ∧ '.' ∉ ext.toList ∧ stem ≠ [] := by
  simp only [extension?, fileName?_join given h, Option.bind_eq_bind, Option.bind_some]
  cases hsplit : splitExtension name.toList with
  | none =>
    refine ⟨fun e => (by cases e), fun ⟨stem, hstem⟩ => ?_⟩
    rw [splitExtension_eq_some.mpr hstem] at hsplit
    cases hsplit
  | some r =>
    obtain ⟨stem, ext'⟩ := r
    constructor
    · intro e
      cases e
      exact ⟨stem, by simpa using splitExtension_eq_some.mp hsplit⟩
    · rintro ⟨stem', hstem⟩
      cases (splitExtension_eq_some.mpr hstem).symm.trans hsplit
      simp

/-- The result of a marked file. It is no result if nothing but a dot is left. -/
theorem withExtension_join (given : dir ≠ "") (h : IsName name) {stem : List Char}
    (hname : name.toList = stem ++ ".go2".toList) (some : stem ≠ []) :
    withExtension (join dir name) "go" =
      join dir (if stem = ['.'] then ".." else String.ofList (stem ++ ".go".toList)) := by
  have hsplit : splitExtension name.toList = .some (stem, "go2".toList) :=
    splitExtension_eq_some.mpr ⟨hname, by decide, some⟩
  have whole : ((join dir name).toList == lead dir ++ name.toList) = true := beq_iff_eq.mpr (toList_join dir name)
  simp only [withExtension, fileName?_join given h, splitName_join given h, hsplit, whole]
  refine String.toList_inj.mp ?_
  by_cases hstem : stem = ['.']
  · subst hstem
    simp [toList_join]
  · simp [hstem, toList_join]

end Path

/-! ## Trees with other files -/

namespace FileTree

variable {t t' t'' : FileTree} {d p q : Location} {n : Node} {es : List (Location × Node)}

theorem lookup_setEntry_self : (setEntry p n es).lookup p = some n := by
  induction es with
  | nil => simp [setEntry]
  | cons e es ih =>
    obtain ⟨p', n'⟩ := e
    by_cases h : p' = p
    · subst h
      simp [setEntry]
    · have h' : (p == p') = false := beq_false_of_ne (Ne.symm h)
      simp [setEntry, h, lookup_cons, h', ih]

theorem lookup_setEntry_of_ne (ne : q ≠ p) : (setEntry p n es).lookup q = es.lookup q := by
  induction es with
  | nil => simp [setEntry, lookup_cons, beq_false_of_ne ne]
  | cons e es ih =>
    obtain ⟨p', n'⟩ := e
    by_cases h : p' = p
    · subst h
      simp [setEntry, lookup_cons, beq_false_of_ne ne]
    · simp [setEntry, h, lookup_cons, ih]

theorem setEntry_self (h : es.lookup p = some n) : setEntry p n es = es := by
  induction es with
  | nil => cases h
  | cons e es ih =>
    obtain ⟨p', n'⟩ := e
    by_cases hp : p' = p
    · subst hp
      simp only [lookup_cons, beq_self_eq_true, Option.some.injEq] at h
      simp [setEntry, h]
    · rw [lookup_cons, beq_false_of_ne (Ne.symm hp)] at h
      simp [setEntry, hp, ih h]

theorem any_setEntry (f : Location → Bool) :
    (setEntry p n es).any (fun e => f e.1) = (es.any (fun e => f e.1) || f p) := by
  induction es with
  | nil => simp [setEntry]
  | cons e es ih =>
    obtain ⟨p', n'⟩ := e
    by_cases h : p' = p
    · subst h
      simp only [setEntry, beq_self_eq_true, if_true, any_cons]
      cases f p' <;> simp
    · simp [setEntry, h, ih, Bool.or_assoc]

theorem node?_set_self : (t.set p n).node? p = some n := by
  simp [node?, set, lookup_setEntry_self]

/-- Another file in a directory changes nothing elsewhere. -/
theorem node?_set_of_ne (hd : t.node? d = some .directory) (ne : q ≠ d ++ [w]) :
    (t.set (d ++ [w]) n).node? q = t.node? q := by
  simp only [node?, set, lookup_setEntry_of_ne ne, any_setEntry (fun e => q.isPrefixOf e)]
  -- What the new place is below, the directory is below, or it is the directory.
  have below : q.isPrefixOf (d ++ [w]) = true →
      (q.isPrefixOf t.workdir || t.entries.any fun e => q.isPrefixOf e.1) = true := by
    intro h
    have hq : q <+: d := (prefix_concat_iff.mp (List.isPrefixOf_iff_prefix.mp h)).resolve_left ne
    have up {e : Location} (h : d <+: e) : q.isPrefixOf e = true := List.isPrefixOf_iff_prefix.mpr (hq.trans h)
    rw [node?] at hd
    split at hd
    · rename_i hlookup
      obtain ⟨_, _, hsplit, -⟩ := lookup_eq_some_iff.mp hlookup
      rw [Bool.or_eq_true, any_eq_true]
      exact .inr ⟨_, hsplit ▸ mem_append_right _ mem_cons_self, up (prefix_refl d)⟩
    · split at hd
      · rename_i hprefix
        rw [Bool.or_eq_true, any_eq_true] at hprefix ⊢
        exact hprefix.imp (up ∘ List.isPrefixOf_iff_prefix.mp) fun ⟨e, he, h⟩ =>
          ⟨e, he, up (List.isPrefixOf_iff_prefix.mp h)⟩
      · cases hd
  cases hpre : q.isPrefixOf (d ++ [w]) with
  | false => rw [Bool.or_false]
  | true => rw [← Bool.or_assoc, below hpre, Bool.true_or]

theorem lookup_of_node?_file {text : Option String} (h : t.node? p = some (.file text)) :
    t.entries.lookup p = some (.file text) := by
  rw [node?] at h
  split at h
  · rename_i hlookup
    rw [hlookup, h]
  · split at h <;> cases h

/-- The names of the files directly below a place, sorted. -/
def names (t : FileTree) (d : Location) : List String := (t.filesBelow d).map Prod.fst

theorem childName?_eq_some : childName? d p = some name ↔ p = d ++ [name] := by
  unfold childName?
  constructor
  · intro h
    split at h
    · rename_i x hdrop
      split at h
      · rename_i hprefix
        cases h
        obtain ⟨rest, rfl⟩ := List.isPrefixOf_iff_prefix.mp hprefix
        rw [drop_left] at hdrop
        rw [hdrop]
      · cases h
    · cases h
  · rintro rfl
    simp [List.isPrefixOf_iff_prefix]

section Sorting

variable {α : Type} {x : String × α} {xs ys : List (String × α)}

theorem insertNamed_split (x : String × α) (xs : List (String × α)) :
    ∃ before after, xs = before ++ after ∧ insertNamed x xs = before ++ x :: after := by
  induction xs with
  | nil => exact ⟨[], [], rfl, rfl⟩
  | cons y ys ih =>
    obtain ⟨before, after, rfl, hins⟩ := ih
    rw [insertNamed]
    split
    · exact ⟨y :: before, after, rfl, by rw [hins]; rfl⟩
    · exact ⟨[], y :: (before ++ after), rfl, rfl⟩

theorem sortNamed_concat (xs : List (String × α)) (x : String × α) :
    sortNamed (xs ++ [x]) = insertNamed x (sortNamed xs) := by
  simp [sortNamed]

theorem sortNamed_perm (xs : List (String × α)) : (sortNamed xs).Perm xs := by
  induction xs using reverseRecOn with
  | nil => exact .refl _
  | append_singleton xs x ih =>
    obtain ⟨before, after, hxs, hins⟩ := insertNamed_split x (sortNamed xs)
    rw [sortNamed_concat, hins]
    rw [hxs] at ih
    exact perm_middle.trans ((List.Perm.cons x ih).trans (perm_append_singleton x xs).symm)

/-- Sorting looks at the names only. -/
theorem map_sortNamed (xs : List (String × α)) :
    (sortNamed xs).map Prod.fst = (sortNamed (xs.map fun x => (x.1, ()))).map Prod.fst := by
  have insert (x : String × α) (xs : List (String × α)) :
      (insertNamed x xs).map (fun x => (x.1, ())) = insertNamed (x.1, ()) (xs.map fun x => (x.1, ())) := by
    induction xs with
    | nil => rfl
    | cons y ys ih =>
      simp only [insertNamed, map_cons]
      split <;> simp [ih]
  have sort : (sortNamed xs).map (fun x => (x.1, ())) = sortNamed (xs.map fun x => (x.1, ())) := by
    induction xs using reverseRecOn with
    | nil => rfl
    | append_singleton xs x ih => rw [sortNamed_concat, insert, ih, map_append, map_singleton, sortNamed_concat]
  rw [← sort, map_map]
  rfl

end Sorting

/-- The files directly below a place, in the order of the entries. -/
def childFile? (d : Location) : Location × Node → Option (String × Option String)
  | (entry, .file text) => (childName? d entry).map (·, text)
  | (_, .directory) => none

theorem filesBelow_eq (t : FileTree) (d : Location) :
    t.filesBelow d = sortNamed (t.entries.filterMap (childFile? d)) := by
  unfold filesBelow
  congr 1

theorem childFile?_eq_some {e : Location × Node} {r : String × Option String} :
    childFile? d e = some r ↔ e = (d ++ [r.1], .file r.2) := by
  obtain ⟨p, _ | text⟩ := e
  · exact ⟨fun h => (by cases h), fun h => (by cases h)⟩
  · obtain ⟨name, text'⟩ := r
    simp only [childFile?, Option.map_eq_some_iff, childName?_eq_some, Prod.mk.injEq, Node.file.injEq]
    constructor
    · rintro ⟨_, rfl, rfl, rfl⟩
      exact ⟨rfl, rfl⟩
    · rintro ⟨rfl, rfl⟩
      exact ⟨name, rfl, rfl, rfl⟩

theorem mem_names : name ∈ t.names d ↔ ∃ text, (d ++ [name], .file text) ∈ t.entries := by
  rw [names, filesBelow_eq, mem_map]
  constructor
  · rintro ⟨r, hr, rfl⟩
    obtain ⟨e, he, hre⟩ := mem_filterMap.mp ((sortNamed_perm _).mem_iff.mp hr)
    exact ⟨r.2, childFile?_eq_some.mp hre ▸ he⟩
  · rintro ⟨text, he⟩
    exact ⟨(name, text), (sortNamed_perm _).mem_iff.mpr (mem_filterMap.mpr ⟨_, he, childFile?_eq_some.mpr rfl⟩), rfl⟩

theorem nodup_names (distinct : (t.entries.map Prod.fst).Nodup) : (t.names d).Nodup := by
  rw [names, filesBelow_eq]
  refine ((sortNamed_perm _).map Prod.fst).nodup_iff.mpr ?_
  generalize t.entries = es at distinct
  induction es with
  | nil => exact nodup_nil
  | cons e es ih =>
    obtain ⟨fresh, others⟩ := nodup_cons.mp distinct
    rw [filterMap_cons]
    split
    · exact ih others
    · rename_i r hr
      obtain rfl := childFile?_eq_some.mp hr
      refine nodup_cons.mpr ⟨fun mem => fresh ?_, ih others⟩
      obtain ⟨r', hr', same⟩ := mem_map.mp mem
      obtain ⟨e, he, hre⟩ := mem_filterMap.mp hr'
      obtain rfl := childFile?_eq_some.mp hre
      exact mem_map.mpr ⟨_, he, by rw [same]⟩

/-- A file that is put in a directory is among its files, where it was before or in its place. -/
theorem names_set (free : t.node? (d ++ [w]) ≠ some .directory) (text : Option String) :
    (t.set (d ++ [w]) (.file text)).names d = t.names d ∨ ∃ before after, t.names d = before ++ after ∧
        (t.set (d ++ [w]) (.file text)).names d = before ++ w :: after := by
  simp only [names, filesBelow_eq, set]
  have here {text : Option String} : childFile? d (d ++ [w], .file text) = some (w, text) := childFile?_eq_some.mpr rfl
  cases hlookup : t.entries.lookup (d ++ [w]) with
  | some node =>
    refine .inl ?_
    have file : ∃ old, node = .file old := by
      rw [node?, hlookup] at free
      cases node with
      | directory => exact absurd rfl free
      | file old => exact ⟨old, rfl⟩
    obtain ⟨old, rfl⟩ := file
    rw [map_sortNamed, map_sortNamed (t.entries.filterMap _)]
    congr 2
    clear free
    generalize t.entries = es at hlookup
    induction es with
    | nil => cases hlookup
    | cons e es ih =>
      obtain ⟨p, n⟩ := e
      by_cases h : p = d ++ [w]
      · subst h
        simp only [lookup_cons, beq_self_eq_true, Option.some.injEq] at hlookup
        simp [setEntry, hlookup, here]
      · rw [lookup_cons, beq_false_of_ne (Ne.symm h)] at hlookup
        have tail := ih hlookup
        simp only [setEntry, beq_false_of_ne h, Bool.false_eq_true, if_false, filterMap_cons]
        split <;> simp [tail]
  | none =>
    refine .inr ?_
    have append : setEntry (d ++ [w]) (.file text) t.entries = t.entries ++ [(d ++ [w], .file text)] := by
      generalize t.entries = es at hlookup
      induction es with
      | nil => rfl
      | cons e es ih =>
        obtain ⟨p, n⟩ := e
        have h : p ≠ d ++ [w] := by
          rintro rfl
          simp at hlookup
        rw [lookup_cons, beq_false_of_ne (Ne.symm h)] at hlookup
        simp [setEntry, h, ih hlookup]
    rw [append, filterMap_append, filterMap_cons_some here, filterMap_nil, sortNamed_concat]
    obtain ⟨before, after, hsplit, hins⟩ := insertNamed_split (w, text) (sortNamed (t.entries.filterMap (childFile? d)))
    rw [hins, hsplit]
    exact ⟨before.map Prod.fst, after.map Prod.fst, by simp, by simp⟩

/-! ## Files put into a directory -/

/-- The paths of the files in a directory. -/
def paths (t : FileTree) (dir : String) (d : Location) : List String := (t.names d).map (Path.join dir)

/-- Files with such names are put into a directory; what discovery finds there stays. -/
structure Beside (dir : String) (d : Location) (P : String → Prop) (t t' : FileTree) : Prop where
  workdir : t'.workdir = t.workdir
  directory : ∀ q, t.node? q = some .directory → t'.node? q = some .directory
  remains : ∀ q, (t.node? q).isSome = true → (t'.node? q).isSome = true
  elsewhere : ∀ q, (∀ w, P w → q ≠ d ++ [w]) → t'.node? q = t.node? q
  grows : ∀ path ∈ t.paths dir d, path ∈ t'.paths dir d
  found : ({} : Extensions).select (t'.paths dir d) = ({} : Extensions).select (t.paths dir d)

namespace Beside

variable {P : String → Prop}

theorem refl : Beside dir d P t t := ⟨rfl, fun _ => id, fun _ => id, fun _ _ => rfl, fun _ => id, rfl⟩

theorem trans (h : Beside dir d P t t') (h' : Beside dir d P t' t'') : Beside dir d P t t'' where
  workdir := h'.workdir.trans h.workdir
  directory q := h'.directory q ∘ h.directory q
  remains q := h'.remains q ∘ h.remains q
  elsewhere q out := (h'.elsewhere q out).trans (h.elsewhere q out)
  grows path := h'.grows path ∘ h.grows path
  found := h'.found.trans h.found

theorem mono {P' : String → Prop} (h : Beside dir d P t t') (sub : ∀ w, P w → P' w) : Beside dir d P' t t' :=
  { h with elsewhere := fun q out => h.elsewhere q fun w hw => out w (sub w hw) }

theorem follow (h : Beside dir d P t t') {part : String} (hr : t.follow q part = .ok r) : t'.follow q part = .ok r := by
  unfold FileTree.follow at hr ⊢
  split at hr
  · cases hr
  · cases hr
  · rename_i hq
    rw [h.directory q hq]
    dsimp only at hr ⊢
    split at hr
    · rename_i stays
      rwa [if_pos stays]
    · rename_i moves
      rw [if_neg moves]
      split at hr
      · rename_i up
        rwa [if_pos up]
      · rename_i down
        rw [if_neg down]
        split at hr
        · rename_i there
          rwa [if_pos (h.remains _ there)]
        · cases hr

theorem resolveFrom (h : Beside dir d P t t') {ps : List String} (hr : ps.foldlM t.follow q = .ok r) :
    ps.foldlM t'.follow q = .ok r := by
  induction ps generalizing q with
  | nil => exact hr
  | cons part ps ih =>
    rw [foldlM_cons] at hr ⊢
    obtain ⟨q', hstep, hr⟩ := ok_of_bind hr
    rw [h.follow hstep]
    exact ih hr

theorem start (h : Beside dir d P t t') (path : String) : t'.start path = t.start path := by
  simp [FileTree.start, h.workdir]

theorem resolve (h : Beside dir d P t t') {path : String} (hr : t.resolve path = .ok r) : t'.resolve path = .ok r := by
  unfold FileTree.resolve at hr ⊢
  split at hr
  · cases hr
  · rename_i given
    rw [if_neg given, h.start]
    exact h.resolveFrom hr

/-- The texts of the other files are read as before. -/
theorem read (h : Beside dir d P t t') {path text : String}
    (out : ∀ r, t.resolve path = .ok r → ∀ w, P w → r ≠ d ++ [w]) (hread : t.read path = .ok text) :
    t'.read path = .ok text := by
  unfold FileTree.read at hread ⊢
  obtain ⟨r, hr, hread⟩ := ok_of_bind hread
  simp only [h.resolve hr, h.elsewhere r (out r hr), bind, Except.bind]
  exact hread

end Beside

/-- Where the paths of a directory lead. -/
theorem resolve_join (h : t.resolve dir = .ok d) : dir ≠ "" ∧
    ∃ ps, ps.foldlM t.follow (t.start dir) = .ok d ∧ ∀ name, '/' ∉ name.toList →
      Path.parts (Path.join dir name) = ps ++ [name] ∧ t.start (Path.join dir name) = t.start dir := by
  have given : dir ≠ "" := by
    rintro rfl
    cases h
  refine ⟨given, ?_⟩
  have whole : (Path.parts dir).foldlM t.follow (t.start dir) = .ok d := by
    simpa [resolve, given] using h
  obtain ⟨ps, hps, join⟩ := Path.parts_join given
  have start (name : String) : t.start (Path.join dir name) = t.start dir := by
    obtain ⟨cs, hlead, hdir⟩ := Path.lead_cases given
    have ne : dir.toList ≠ [] := by simpa using given
    simp only [FileTree.start, Path.toList_join, hlead]
    rcases hdir with hdir | hdir
    · rw [hdir] at ne ⊢
      rw [head?_append_of_ne_nil _ (by simp), head?_append_of_ne_nil _ ne]
    · rw [hdir, head?_append_of_ne_nil _ (by simp)]
  refine ⟨ps, ?_, fun name plain => ⟨join name plain, start name⟩⟩
  rcases hps with hps | hps
  · rwa [hps] at whole
  · -- The empty part behind the last slash stays where it is.
    rw [hps, foldlM_append] at whole
    cases hfold : ps.foldlM t.follow (t.start dir) with
    | error fault =>
      rw [hfold] at whole
      cases whole
    | ok q =>
      rw [hfold] at whole
      simp only [foldlM_cons, foldlM_nil, bind_pure] at whole
      change t.follow q "" = .ok d at whole
      unfold FileTree.follow at whole
      split at whole
      · cases whole
      · cases whole
      · exact whole

theorem resolve_name (h : t.resolve dir = .ok d) (proper : Path.IsName name)
    (hr : t.resolve (Path.join dir name) = .ok r) : r = d ++ [name] := by
  obtain ⟨given, ps, hps, join⟩ := resolve_join h
  obtain ⟨full, plain, dot, dots⟩ := proper
  obtain ⟨hparts, hstart⟩ := join name plain
  unfold resolve at hr
  split at hr
  · cases hr
  · rw [hparts, hstart, foldlM_append, hps] at hr
    simp only [foldlM_cons, foldlM_nil, bind_pure] at hr
    change t.follow d name = .ok r at hr
    simp only [FileTree.follow, beq_false_of_ne full, beq_false_of_ne dot, beq_false_of_ne dots, Bool.or_self,
      Bool.false_eq_true, if_false] at hr
    split at hr
    · cases hr
    · cases hr
    · split at hr <;> cases hr
      rfl

/-- Writing to a path of a directory. -/
theorem write_join {text : String} (h : t.resolve dir = .ok d) (plain : '/' ∉ w.toList) :
    t.write (Path.join dir w) text = .ok t' ↔ t.node? d = some .directory ∧ Path.IsName w ∧
      t.node? (d ++ [w]) ≠ some .directory ∧ t' = t.set (d ++ [w]) (.file (some text)) := by
  obtain ⟨given, ps, hps, join⟩ := resolve_join h
  obtain ⟨hparts, hstart⟩ := join w plain
  unfold FileTree.write
  simp only [hparts, hstart, dropLast_concat, hps, getLastD_concat, bind, Except.bind]
  cases hd : t.node? d with
  | none => simp
  | some node =>
    cases node with
    | file _ => simp
    | directory =>
      by_cases hw : (w == "" || w == "." || w == "..") = true
      · simp only [hw, if_true, reduceCtorEq, true_and, false_iff]
        rintro ⟨⟨full, -, dot, dots⟩, -⟩
        simp [full, dot, dots] at hw
      · have proper : Path.IsName w := by
          simp only [Bool.or_eq_true, beq_iff_eq, not_or] at hw
          exact ⟨hw.1.1, plain, hw.1.2, hw.2⟩
        simp only [hw, Bool.false_eq_true, if_false, true_and, proper]
        split
        · rename_i taken
          simp [taken]
        · rename_i free
          simp only [Except.ok.injEq]
          exact ⟨fun e => ⟨fun taken => free taken, e.symm⟩, fun e => e.2.symm⟩

end FileTree

/-! ## What discovery finds -/

namespace Extensions

variable {ext : Extensions} {paths before after : List String} {path : String}

/-- The result of a marked file is passed over. -/
theorem select_insert (unmarked : ext.isMarked path = false)
    (result : ∃ m ∈ before ++ after, ext.isMarked m = true ∧ Path.withExtension m ext.plain = path) :
    ext.select (before ++ path :: after) = ext.select (before ++ after) := by
  obtain ⟨m, hm, marked, hpath⟩ := result
  have mem : path ∈ ((before ++ after).filter ext.isMarked).map fun path => Path.withExtension path ext.plain :=
    mem_map.mpr ⟨m, mem_filter.mpr ⟨hm, marked⟩, hpath⟩
  have same : (before ++ path :: after).filter ext.isMarked = (before ++ after).filter ext.isMarked := by
    simp [unmarked]
  simp only [select, same, filterMap_append, filterMap_cons, unmarked, contains_iff_mem.mpr mem]
  simp

theorem mem_select {f : FoundFile} (h : f ∈ ext.select paths) : f.path ∈ paths ∧ f.marked = ext.isMarked f.path ∧
    (f.marked = false → ∀ m ∈ paths, ext.isMarked m = true → Path.withExtension m ext.plain ≠ f.path) := by
  obtain ⟨path, hpath, hf⟩ := mem_filterMap.mp h
  split at hf
  · rename_i marked
    cases hf
    exact ⟨hpath, marked.symm, nofun⟩
  · rename_i unmarked
    split at hf
    · rename_i plain
      cases hf
      refine ⟨hpath, by simpa using unmarked, fun _ m hm marked result => ?_⟩
      have contained : path ∈ (paths.filter ext.isMarked).map fun path => Path.withExtension path ext.plain :=
        mem_map.mpr ⟨m, mem_filter.mpr ⟨hm, marked⟩, result⟩
      simp [contained] at plain
    · cases hf

theorem select_sublist (ext : Extensions) (paths : List String) :
    ((ext.select paths).map FoundFile.path).Sublist paths := by
  simp only [select]
  generalize ((paths.filter ext.isMarked).map fun path => Path.withExtension path ext.plain) = results
  induction paths with
  | nil => exact .slnil
  | cons path paths ih =>
    rw [filterMap_cons]
    split
    · exact ih.cons _
    · rename_i f hf
      have : f.path = path := by
        split at hf
        · cases hf
          rfl
        · split at hf <;> cases hf
          rfl
      rw [map_cons, this]
      exact ih.cons_cons _

end Extensions

section Output

variable {m : String}

theorem isMarked_join (given : dir ≠ "") (h : Path.IsName m) :
    ({} : Extensions).isMarked (Path.join dir m) = true ↔ ∃ stem, m.toList = stem ++ ".go2".toList ∧ stem ≠ [] := by
  rw [Extensions.isMarked, beq_iff_eq, Path.extension?_join given h]
  exact ⟨fun ⟨stem, hm, _, full⟩ => ⟨stem, hm, full⟩, fun ⟨stem, hm, full⟩ => ⟨stem, hm, by decide, full⟩⟩

/-- Where the result of a marked file goes. -/
theorem output_join (given : dir ≠ "") (h : Path.IsName m)
    (marked : ({} : Extensions).isMarked (Path.join dir m) = true) :
    ∃ w, Path.withExtension (Path.join dir m) "go" = Path.join dir w ∧ '/' ∉ w.toList ∧
      (Path.IsName w → ({} : Extensions).isMarked (Path.join dir w) = false) := by
  obtain ⟨stem, hm, some⟩ := (isMarked_join given h).mp marked
  refine ⟨_, Path.withExtension_join given h hm some, ?_, fun name => ?_⟩
  · split
    · decide
    · rw [String.toList_ofList, mem_append, not_or]
      exact ⟨fun mem => h.2.1 (hm ▸ mem_append_left _ mem), by decide⟩
  · rw [Bool.eq_false_iff]
    intro marked'
    obtain ⟨stem', hw, -⟩ := (isMarked_join given name).mp marked'
    have last := congrArg getLast? hw
    split at last
    · simp at last
    · simp at last

theorem output_injective (given : dir ≠ "") {m' : String} (h : Path.IsName m) (h' : Path.IsName m')
    (marked : ({} : Extensions).isMarked (Path.join dir m) = true)
    (marked' : ({} : Extensions).isMarked (Path.join dir m') = true)
    (same : Path.withExtension (Path.join dir m) "go" = Path.withExtension (Path.join dir m') "go") : m = m' := by
  obtain ⟨stem, hm, some⟩ := (isMarked_join given h).mp marked
  obtain ⟨stem', hm', some'⟩ := (isMarked_join given h').mp marked'
  rw [Path.withExtension_join given h hm some, Path.withExtension_join given h' hm' some'] at same
  have names := congrArg String.toList (Path.join_injective dir same)
  have stems : stem = stem' := by
    split at names <;> split at names
    · rename_i e e'
      rw [e, e']
    · have last := congrArg getLast? names
      simp at last
    · have last := congrArg getLast? names
      simp at last
    · simpa using names
  exact String.toList_inj.mp (by rw [hm, hm', stems])

end Output

/-! ## Writing the results -/

namespace FileTree

variable {t t' : FileTree} {d : Location}

theorem writeResults_ok (h : t.write (f.outputPath "go") f.render = .ok t') :
    t.writeResults (f :: files) = t'.writeResults files := by
  simp only [writeResults, h]

theorem writeResults_error {fault : AccessFault} (h : t.write (f.outputPath "go") f.render = .error fault) :
    t.writeResults (f :: files) = (t, some (unreadable (f.outputPath "go") fault)) := by
  simp only [writeResults, h]

/-- The result of a file is a result of the directory. -/
def Goes (t : FileTree) (dir : String) (d : Location) (f : SourceFile) (w : String) : Prop :=
  f.outputPath "go" = Path.join dir w ∧ '/' ∉ w.toList ∧
    (Path.IsName w → ({} : Extensions).isMarked (Path.join dir w) = false) ∧
    ∃ m ∈ t.paths dir d, ({} : Extensions).isMarked m = true ∧ Path.withExtension m "go" = Path.join dir w

/-- The result of a file is in the directory. -/
def Holds (t : FileTree) (dir : String) (d : Location) (f : SourceFile) : Prop :=
  t.node? d = some .directory ∧ ∃ w, f.outputPath "go" = Path.join dir w ∧ Path.IsName w ∧
    t.node? (d ++ [w]) = some (.file (some f.render))

/-- What one write does to the directory. -/
theorem Goes.write (goes : t.Goes dir d f w) (h : t.resolve dir = .ok d)
    (hw : t.write (f.outputPath "go") f.render = .ok t') :
    Path.IsName w ∧ Beside dir d (· = w) t t' ∧ t'.Holds dir d f := by
  obtain ⟨output, plain, unmarked, m, hm, marked, result⟩ := goes
  rw [output] at hw
  obtain ⟨hd, name, free, rfl⟩ := (write_join h plain).mp hw
  have away {q : Location} (ne : q ≠ d ++ [w]) := node?_set_of_ne (n := .file (some f.render)) hd ne
  have directory (q : Location) (hq : t.node? q = some .directory) :
      (t.set (d ++ [w]) (.file (some f.render))).node? q = some .directory := by
    rwa [away]
    rintro rfl
    exact free hq
  have added := names_set free (some f.render)
  refine ⟨name, ⟨rfl, directory, fun q hq => ?_, fun q out => away (out w rfl), fun path hpath => ?_, ?_⟩,
    directory d hd, w, output, name, node?_set_self⟩
  · by_cases hqw : q = d ++ [w]
    · rw [hqw, node?_set_self]
      rfl
    · rwa [away hqw]
  · rcases added with same | ⟨before, after, hnames, hset⟩
    · rwa [paths, same]
    · rw [paths, hnames] at hpath
      rw [paths, hset]
      simp only [map_append, map_cons, mem_append, mem_cons] at hpath ⊢
      exact hpath.imp_right .inr
  · rcases added with same | ⟨before, after, hnames, hset⟩
    · rw [paths, same, paths]
    · rw [paths, hnames, map_append] at hm
      rw [paths, hset, map_append, map_cons, paths, hnames, map_append]
      exact Extensions.select_insert (unmarked name) ⟨m, hm, marked, result⟩

/-- **Results are put beside their sources.** All results are written to the directory, each as its file renders,
and discovery finds there what it found before. -/
theorem writeResults_beside (goes : ∀ f ∈ files, ∃ w, t.Goes dir d f w)
    (distinct : (files.map (·.outputPath "go")).Nodup) (h : t.resolve dir = .ok d)
    (run : t.writeResults files = (t', none)) :
    Beside dir d (fun w => Path.IsName w ∧ ∃ f ∈ files, t.Goes dir d f w) t t' ∧ ∀ f ∈ files, t'.Holds dir d f := by
  induction files generalizing t with
  | nil =>
    cases run
    exact ⟨.refl, nofun⟩
  | cons f files ih =>
    obtain ⟨⟨w, hw⟩, others⟩ := forall_mem_cons.mp goes
    obtain ⟨fresh, distinct'⟩ := nodup_cons.mp distinct
    cases hwrite : t.write (f.outputPath "go") f.render with
    | error fault =>
      rw [writeResults_error hwrite] at run
      cases run
    | ok t1 =>
      rw [writeResults_ok hwrite] at run
      obtain ⟨name, beside, hd, w', output', name', here⟩ := hw.write h hwrite
      obtain rfl : w = w' := Path.join_injective dir (hw.1.symm.trans output')
      have goes1 : ∀ f ∈ files, ∃ w, t1.Goes dir d f w := fun f hf => by
        obtain ⟨w, output, plain, unmarked, m, hm, rest⟩ := others f hf
        exact ⟨w, output, plain, unmarked, m, beside.grows m hm, rest⟩
      obtain ⟨beside', holds'⟩ := ih goes1 distinct' (beside.resolve h) run
      refine ⟨(beside.mono ?_).trans (beside'.mono ?_), forall_mem_cons.mpr ⟨?_, holds'⟩⟩
      · rintro _ rfl
        exact ⟨name, f, mem_cons_self, hw⟩
      · rintro v ⟨hv, f', hf', goes'⟩
        obtain ⟨v', hv'⟩ := others f' hf'
        obtain rfl : v' = v := Path.join_injective dir (hv'.1.symm.trans goes'.1)
        exact ⟨hv, f', mem_cons_of_mem _ hf', hv'⟩
      · refine ⟨beside'.directory d hd, w, output', name', ?_⟩
        rw [beside'.elsewhere _ ?_, here]
        -- No later result goes to the same place.
        rintro v ⟨-, f', hf', goes'⟩ same
        obtain rfl : w = v := by simpa using same
        exact fresh (mem_map.mpr ⟨f', hf', goes'.1.trans output'.symm⟩)

/-- Results that are there already are written again without a change. -/
theorem writeResults_holds (h : t.resolve dir = .ok d) (holds : ∀ f ∈ files, t.Holds dir d f) :
    t.writeResults files = (t, none) := by
  induction files with
  | nil => rfl
  | cons f files ih =>
    obtain ⟨⟨hd, w, output, name, here⟩, others⟩ := forall_mem_cons.mp holds
    have same : t.set (d ++ [w]) (.file (some f.render)) = t := by
      rw [set, setEntry_self (lookup_of_node?_file here)]
    have again : t.write (f.outputPath "go") f.render = .ok t := by
      rw [output, write_join h name.2.1]
      exact ⟨hd, name, by rw [here]; nofun, same.symm⟩
    rw [writeResults_ok again]
    exact ih others

end FileTree

/-! ## Where the results come from -/

namespace SourceFile

/-- What of a file stays while it is expanded. -/
def origin (f : SourceFile) : String × Bool := (f.path, f.isMarked)

end SourceFile

theorem readSource_origin {next next' : NodeId} {input : SourceInput} (h : readSource next input = .ok (f, next')) :
    f.origin = (input.path, input.marked) := by
  obtain ⟨lowered, tree, hlowered, -, rfl⟩ := readSource_ok h
  refine congrArg (input.path, ·) (?_ : lowered.isSome = input.marked)
  unfold lowerInput at hlowered
  split at hlowered
  · rename_i marked
    split at hlowered <;> cases hlowered
    exact marked.symm
  · rename_i unmarked
    cases hlowered
    exact (Bool.eq_false_iff.mpr unmarked).symm

theorem readSources_origin {expected : Option String} {next next' : NodeId}
    (h : readSources expected next inputs = .ok (files, next')) :
    files.map SourceFile.origin = inputs.map fun input => (input.path, input.marked) := by
  induction inputs generalizing expected next files with
  | nil =>
    cases h
    rfl
  | cons input inputs ih =>
    obtain ⟨f, next1, expected', rest, hfile, hrest, rfl⟩ := readSources_cons h
    rw [map_cons, map_cons, readSource_origin hfile, ih hrest]

theorem expandFiles_origin (info : TypeInfo) (index : Nat) (state : ExpandState) (files : List SourceFile) :
    (expandFiles info index state files).files.map SourceFile.origin = files.map SourceFile.origin := by
  induction files generalizing index state with
  | nil => rfl
  | cons f files ih =>
    rw [expandFiles]
    split
    · dsimp only
      split
      · rfl
      · simp only [map_cons, ih]
        rfl
    · simp only [map_cons, ih]

theorem collectFiles_origin {index : Nat} {out out' : Collected} {files' : List SourceFile}
    (h : collectFiles index out files = .ok (files', out')) :
    files'.map SourceFile.origin = files.map SourceFile.origin := by
  induction files generalizing index out files' with
  | nil =>
    cases h
    rfl
  | cons f files ih =>
    obtain ⟨_, _, _, ⟨-, rfl, rfl⟩ | ⟨l, tree, hlowered, -, rfl⟩, hrest, rfl⟩ := collectFiles_cons h
    · rw [map_cons, map_cons, ih hrest]
    · rw [map_cons, map_cons, ih hrest]
      simp [SourceFile.origin, SourceFile.isMarked, hlowered]

theorem rounds_origin {typing : Typing} {checks handlers : Nat} {collected : Collected} {spliced : Std.TreeSet NodeId}
    {iteration : Nat} {snapshots : List Snapshot} (fuel : Nat) :
    (rounds typing checks handlers collected spliced iteration p snapshots fuel).package.files.map SourceFile.origin =
      p.files.map SourceFile.origin := by
  induction fuel generalizing collected spliced iteration p snapshots with
  | zero =>
    rw [rounds]
    split <;> rfl
  | succ fuel ih =>
    rw [rounds]
    split
    · rfl
    · dsimp only
      split
      · exact expandFiles_origin ..
      · split
        · exact expandFiles_origin ..
        · rw [ih]
          exact expandFiles_origin ..

/-- The files of a run are those that were read. -/
theorem expandWith_origin (h : Package.assemble inputs = .ok p) (stubs : StubSet) :
    (p.expandWith stubs).package.files.map SourceFile.origin =
      inputs.map fun input => (input.path, input.marked) := by
  have read := readSources_origin (assemble_files h)
  rw [← read, Package.expandWith, Package.expand, Package.collect]
  cases hcollect : collectFiles 0 {} p.files with
  | error e => rfl
  | ok r => exact (rounds_origin _).trans (collectFiles_origin hcollect)

theorem markedFiles_path (h : p.files.map SourceFile.origin = inputs.map fun input => (input.path, input.marked)) :
    p.markedFiles.map SourceFile.path = (inputs.filter SourceInput.marked).map SourceInput.path := by
  rw [Package.markedFiles]
  generalize p.files = files at h
  induction files generalizing inputs with
  | nil =>
    cases inputs with
    | nil => rfl
    | cons => cases h
  | cons f files ih =>
    cases inputs with
    | nil => cases h
    | cons input inputs =>
      obtain ⟨same, rest⟩ := List.cons.inj h
      obtain ⟨path, marked⟩ := Prod.mk.inj same
      rw [filter_cons, filter_cons, marked]
      split
      · rw [map_cons, map_cons, ih rest, path]
      · exact ih rest

/-! ## Running an expansion again -/

namespace FileTree

variable {t t' : FileTree} {d : Location}

/-- Every place has one entry, and every entry a name. -/
structure Proper (t : FileTree) : Prop where
  distinct : (t.entries.map Prod.fst).Nodup
  names : ∀ e ∈ t.entries, ∀ name ∈ e.1, Path.IsName name

theorem mapM_readInput {files : List FoundFile} (h : files.mapM t.readInput = .ok inputs) :
    List.Forall₂ (fun f i => t.readInput f = .ok i) files inputs := by
  induction files generalizing inputs with
  | nil =>
    cases h
    exact .nil
  | cons f files ih =>
    rw [mapM_cons] at h
    obtain ⟨i, hf, h⟩ := ok_of_bind h
    obtain ⟨is, hfiles, h⟩ := ok_of_bind h
    cases h
    exact .cons hf (ih hfiles)

theorem mapM_of_readInput {files : List FoundFile} (h : List.Forall₂ (fun f i => t.readInput f = .ok i) files inputs) :
    files.mapM t.readInput = .ok inputs := by
  induction h with
  | nil => rfl
  | cons hf _ ih =>
    rw [mapM_cons, hf, ih]
    rfl

theorem readInput_ok {f : FoundFile} :
    t.readInput f = .ok i ↔ t.read f.path = .ok i.text ∧ i.path = f.path ∧ i.marked = f.marked := by
  obtain ⟨path, text, marked⟩ := i
  unfold readInput
  cases hread : t.read f.path with
  | error fault => exact ⟨fun h => (by cases h), fun h => (by cases h.1)⟩
  | ok text' =>
    constructor
    · intro h
      cases h
      exact ⟨rfl, rfl, rfl⟩
    · rintro ⟨h, rfl, rfl⟩
      cases h
      rfl

theorem read_mem {files : List FoundFile} (h : List.Forall₂ (fun f i => t.readInput f = .ok i) files inputs)
    (hi : i ∈ inputs) : ∃ f ∈ files, t.readInput f = .ok i := by
  induction h with
  | nil => cases hi
  | cons hf _ ih =>
    rcases mem_cons.mp hi with rfl | hi
    · exact ⟨_, mem_cons_self, hf⟩
    · exact (ih hi).imp fun _ h => ⟨mem_cons_of_mem _ h.1, h.2⟩

theorem read_imp {files : List FoundFile} (h : List.Forall₂ (fun f i => t.readInput f = .ok i) files inputs)
    (same : ∀ f ∈ files, ∀ i, t.readInput f = .ok i → t'.readInput f = .ok i) :
    List.Forall₂ (fun f i => t'.readInput f = .ok i) files inputs := by
  induction h with
  | nil => exact .nil
  | cons hf _ ih =>
    obtain ⟨here, others⟩ := forall_mem_cons.mp same
    exact .cons (here _ hf) (ih others)

theorem readPackage_ok : t.readPackage {} dir = .ok inputs ↔
    ∃ d, t.resolve dir = .ok d ∧ (({} : Extensions).select (t.paths dir d)).any FoundFile.marked = true ∧
      List.Forall₂ (fun f i => t.readInput f = .ok i) (({} : Extensions).select (t.paths dir d)) inputs := by
  unfold readPackage findPackage fileNames
  cases hd : t.resolve dir with
  | error fault => exact ⟨fun h => (by cases h), fun ⟨_, h, _⟩ => (by cases h)⟩
  | ok d =>
    have find : (orUnreadable dir (do return (t.filesBelow (← (Except.ok d : Except AccessFault Location))).map Prod.fst)) =
        .ok (t.names d) := rfl
    rw [find]
    change (((if (({} : Extensions).select (t.paths dir d)).any FoundFile.marked then
      Except.ok (({} : Extensions).select (t.paths dir d)) else Except.error _) >>= fun files => files.mapM t.readInput) =
      .ok inputs) ↔ _
    split
    · rename_i marked
      constructor
      · exact fun h => ⟨d, rfl, marked, mapM_readInput h⟩
      · rintro ⟨_, h, -, rest⟩
        cases h
        exact mapM_of_readInput rest
    · rename_i unmarked
      refine ⟨fun h => (by cases h), ?_⟩
      rintro ⟨_, h, marked, -⟩
      cases h
      exact absurd marked unmarked

theorem loadStubs_of_read {stubs : List String} {set : StubSet} (h : t.loadStubs stubs = .ok set)
    (same : ∀ path ∈ stubs, ∀ text, t.read path = .ok text → t'.read path = .ok text) :
    t'.loadStubs stubs = .ok set := by
  unfold loadStubs at h ⊢
  generalize StubSet.builtin = builtin at h
  cases builtin with
  | error e => cases h
  | ok base =>
    change stubs.foldlM _ base = _ at h
    change stubs.foldlM _ base = _
    induction stubs generalizing base with
    | nil => exact h
    | cons path stubs ih =>
      obtain ⟨here, others⟩ := forall_mem_cons.mp same
      rw [foldlM_cons] at h ⊢
      obtain ⟨next, hstep, h⟩ := ok_of_bind h
      cases hread : t.read path with
      | error fault =>
        rw [hread] at hstep
        cases hstep
      | ok text =>
        rw [hread] at hstep
        rw [here text hread]
        exact (congrArg (· >>= _) hstep).trans (ih others next h)

theorem openPackage_ok {settings : Settings} {stubs : StubSet} (h : t.openPackage settings dir = .ok (p, stubs)) :
    ∃ inputs, t.readPackage {} dir = .ok inputs ∧
      Package.assemble inputs = .ok p ∧ t.loadStubs settings.stubs = .ok stubs := by
  unfold openPackage at h
  obtain ⟨inputs, hread, h⟩ := ok_of_bind h
  obtain ⟨p', hassemble, h⟩ := ok_of_bind h
  obtain ⟨stubs', hload, h⟩ := ok_of_bind h
  cases h
  exact ⟨inputs, hread, hassemble, hload⟩

theorem openPackage_of {settings : Settings} {stubs : StubSet} (read : t.readPackage {} dir = .ok inputs)
    (assembled : Package.assemble inputs = .ok p) (loaded : t.loadStubs settings.stubs = .ok stubs) :
    t.openPackage settings dir = .ok (p, stubs) := by
  unfold openPackage
  rw [read, loaded]
  change Package.assemble inputs >>= (fun p => .ok (p, stubs)) = .ok (p, stubs)
  rw [assembled]
  rfl

/-- The results of the files that are read from a directory are results of the directory, each at a place of its own. -/
theorem goes_of_read (proper : t.Proper) (h : t.resolve dir = .ok d)
    (read : List.Forall₂ (fun f i => t.readInput f = .ok i) (({} : Extensions).select (t.paths dir d)) inputs)
    (origin : files.map SourceFile.path = (inputs.filter SourceInput.marked).map SourceInput.path) :
    (∀ f ∈ files, ∃ w, t.Goes dir d f w) ∧ (files.map (·.outputPath "go")).Nodup := by
  have given := (resolve_join h).1
  have names {m : String} (hm : m ∈ t.names d) : Path.IsName m := by
    obtain ⟨text, he⟩ := mem_names.mp hm
    exact proper.names _ he m (by simp)
  -- The paths of the marked files are marked paths of the directory.
  have marked : ∀ path ∈ files.map SourceFile.path, ∃ m ∈ t.names d, path = Path.join dir m ∧
      ({} : Extensions).isMarked path = true := by
    intro path hpath
    rw [origin] at hpath
    obtain ⟨i, hi, rfl⟩ := mem_map.mp hpath
    obtain ⟨hi, hmarked⟩ := mem_filter.mp hi
    obtain ⟨f, hf, hread⟩ := read_mem read hi
    obtain ⟨-, hpath, hmark⟩ := readInput_ok.mp hread
    obtain ⟨mem, mark, -⟩ := Extensions.mem_select hf
    obtain ⟨m, hm, hjoin⟩ := mem_map.mp mem
    rw [hpath]
    exact ⟨m, hm, hjoin.symm, by rw [← mark, ← hmark, hmarked]⟩
  have distinct : (files.map SourceFile.path).Nodup := by
    have paths : (t.paths dir d).Nodup := (nodup_names proper.distinct).map (Path.join_injective dir)
    have inputPaths : inputs.map SourceInput.path = (({} : Extensions).select (t.paths dir d)).map FoundFile.path := by
      clear marked origin
      generalize ({} : Extensions).select (t.paths dir d) = found at read
      induction read with
      | nil => rfl
      | cons hf _ ih => rw [map_cons, map_cons, ih, (readInput_ok.mp hf).2.1]
    rw [origin]
    refine ((filter_sublist.map _).nodup ?_)
    rw [inputPaths]
    exact (Extensions.select_sublist {} _).nodup paths
  constructor
  · intro f hf
    obtain ⟨m, hm, hpath, hmarked⟩ := marked f.path (mem_map_of_mem hf)
    rw [hpath] at hmarked
    obtain ⟨w, output, plain, unmarked⟩ := output_join given (names hm) hmarked
    refine ⟨w, ?_, plain, unmarked, _, mem_map_of_mem hm, hmarked, output⟩
    rw [SourceFile.outputPath, hpath, output]
  · change (files.map ((Path.withExtension · "go") ∘ SourceFile.path)).Nodup
    rw [← map_map]
    refine distinct.map_on fun x hx y hy same => ?_
    obtain ⟨m, hm, rfl, hmarked⟩ := marked x hx
    obtain ⟨m', hm', rfl, hmarked'⟩ := marked y hy
    rw [output_injective given (names hm) (names hm') hmarked hmarked' same]

/-- The files of the package are no results, so they are read as before. -/
theorem readInput_beside (proper : t.Proper) (h : t.resolve dir = .ok d) {f : FoundFile}
    (hf : f ∈ ({} : Extensions).select (t.paths dir d))
    (beside : Beside dir d (fun w => Path.IsName w ∧ ∃ f ∈ files, t.Goes dir d f w) t t')
    (hread : t.readInput f = .ok i) : t'.readInput f = .ok i := by
  obtain ⟨mem, mark, unlike⟩ := Extensions.mem_select hf
  obtain ⟨m, hm, hjoin⟩ := mem_map.mp mem
  obtain ⟨text, he⟩ := mem_names.mp hm
  have name : Path.IsName m := proper.names _ he m (by simp)
  obtain ⟨hread, rest⟩ := readInput_ok.mp hread
  refine readInput_ok.mpr ⟨beside.read (fun place hplace w spare same => ?_) hread, rest⟩
  obtain ⟨hw, _, _, -, -, unmarked, x, hx, marked, result⟩ := spare
  rw [← hjoin] at hplace
  obtain rfl : m = w := by simpa using (resolve_name h name hplace).symm.trans same
  rw [hjoin] at unmarked result
  exact unlike (mark.trans (unmarked hw)) x hx marked result

end FileTree

/-- **An expansion is stable under its own output.** Let a tree give every place one entry and every
entry a name, and let no stub file lie in the directory. If an expansion of the directory succeeds and
writes its results, then discovery finds the same files there, marked or plain as before and with the
same texts, and another expansion ends in the same way and leaves the tree as it is. -/
theorem runExpand_stable {t t' : FileTree} {settings : Settings} {dir output : String} {summary : Option Summary}
    (proper : t.Proper)
    (outside : ∀ path ∈ settings.stubs, ∀ d place, t.resolve dir = .ok d → t.resolve path = .ok place →
      ∀ name, place ≠ d ++ [name])
    (done : Command.runExpand t settings dir false = ⟨output, .done summary, t'⟩) :
    t'.readPackage {} dir = t.readPackage {} dir ∧
      Command.runExpand t' settings dir false = ⟨output, .done summary, t'⟩ := by
  unfold Command.runExpand at done ⊢
  cases hopen : t.openPackage settings dir with
  | error e =>
    rw [hopen] at done
    cases done
  | ok r =>
    obtain ⟨p, stubs⟩ := r
    rw [hopen] at done
    dsimp only at done
    obtain ⟨inputs, hread, hassemble, hload⟩ := FileTree.openPackage_ok hopen
    obtain ⟨d, hd, full, read⟩ := FileTree.readPackage_ok.mp hread
    have origin := markedFiles_path (expandWith_origin hassemble stubs)
    obtain ⟨goes, distinct⟩ := FileTree.goes_of_read proper hd read origin
    cases houtcome : (p.expandWith stubs).outcome with
    | error e =>
      rw [houtcome] at done
      cases done
    | ok s =>
      rw [houtcome] at done
      dsimp only [Bool.false_eq_true, if_false] at done
      cases hwrite : t.writeResults (p.expandWith stubs).package.markedFiles with
      | mk t₁ failure =>
        rw [hwrite] at done
        cases failure with
        | some e => cases done
        | none =>
          cases done
          obtain ⟨beside, holds⟩ := FileTree.writeResults_beside goes distinct hd hwrite
          have hd' := beside.resolve hd
          have read' : t'.readPackage {} dir = .ok inputs := by
            rw [← beside.found] at full
            refine FileTree.readPackage_ok.mpr ⟨d, hd', full, ?_⟩
            rw [beside.found]
            exact FileTree.read_imp read fun f hf i => FileTree.readInput_beside proper hd hf beside
          have load' : t'.loadStubs settings.stubs = .ok stubs :=
            FileTree.loadStubs_of_read hload fun path hpath text =>
              beside.read fun place hplace w _ => outside path hpath d place hd hplace w
          refine ⟨read'.trans hread.symm, ?_⟩
          rw [FileTree.openPackage_of read' hassemble load']
          dsimp only
          rw [houtcome]
          dsimp only [Bool.false_eq_true, if_false]
          rw [FileTree.writeResults_holds hd' holds]
          rfl

theorem CommandResult.eq_done {r : CommandResult} (h : r.ending.status = 0) :
    ∃ output summary t, r = ⟨output, .done summary, t⟩ := by
  obtain ⟨output, ending, t⟩ := r
  cases ending with
  | done summary => exact ⟨output, summary, t, rfl⟩
  | failed | misused => cases h

/-- A directory with one file that is expanded. -/
def FileTree.lone : FileTree := ⟨[(["a.go2"], .file (some "package p\n"))], []⟩

/-- A package is expanded beside its only file, twice. -/
theorem runExpand_stable_lone : ∃ output summary t',
    Command.runExpand .lone {} "." false = ⟨output, .done summary, t'⟩ ∧
      t'.readPackage {} "." = FileTree.lone.readPackage {} "." ∧
      Command.runExpand t' {} "." false = ⟨output, .done summary, t'⟩ := by
  obtain ⟨output, summary, t', done⟩ :=
    CommandResult.eq_done (show (Command.runExpand .lone {} "." false).ending.status = 0 by decide +kernel)
  exact ⟨output, summary, t', done, runExpand_stable ⟨by decide, by decide⟩ nofun done⟩

end CheckHandle
