import CheckHandle.Checker.Pass
import CheckHandle.Proofs.Fresh
import CheckHandle.Proofs.Promotion

/-!
# Packages of stub files

Stub files are loaded one after the other, and what a later one declares
replaces what an earlier one did. Packages are told apart by their import paths,
but declared types by the last element of the path and the name: the types of two
packages whose paths end alike share a table, and the last declaration counts. So
a package keeps its members whatever other packages there are, and of its types
those that no other package declares later.
-/

namespace CheckHandle

open Std

variable {set1 o : StubSet} {path : String} {stub : PackageStub}

variable {more : List (String × PackageStub)} {t : Ty}

/-! ## Loading -/

/-- Stub files over the stubs that are known. -/
def StubSet.mergeAll (base : StubSet) (files : List StubFile) : Except StubFault StubSet :=
  files.foldlM (fun set file => do return set.merge (← file.load)) base

/-- The packages of a file but one. -/
def StubFile.without (file : StubFile) (path : String) : StubFile := TreeMap.filter (fun other _ => other != path) file

/-- The package declares a type that goes by this name. -/
def PackageStub.declares (path : String) (stub : PackageStub) (key : String) : Bool :=
  stub.types.toList.any fun (name, _) => qualifiedName (lastElement path) name == key

/-- The path of the last package that declares a type by this name. -/
def lastDeclarer? (packages : List (String × PackageStub)) (key : String) : Option String :=
  (packages.reverse.find? fun p => p.2.declares p.1 key).map Prod.fst

theorem lastDeclarer?_append (ps qs : List (String × PackageStub)) (key : String) :
    lastDeclarer? (ps ++ qs) key = (lastDeclarer? qs key).or (lastDeclarer? ps key) := by
  simp only [lastDeclarer?, List.reverse_append, List.find?_append]
  cases qs.reverse.find? _ <;> rfl

theorem lastDeclarer?_singleton (path : String) (stub : PackageStub) (key : String) :
    lastDeclarer? [(path, stub)] key = if stub.declares path key then some path else none := by
  simp only [lastDeclarer?, List.reverse_singleton, List.find?_singleton]
  split <;> rfl

theorem mapM_fst {α β : Type} {f : String × α → Except StubFault (String × β)} {xs : List (String × α)}
    {ys : List (String × β)} (h : xs.mapM f = .ok ys) (names : ∀ x y, f x = .ok y → y.1 = x.1) :
    ys.map Prod.fst = xs.map Prod.fst := by
  induction xs generalizing ys with
  | nil =>
    cases h
    rfl
  | cons x xs ih =>
    rw [List.mapM_cons] at h
    obtain ⟨y, hx, h⟩ := ok_of_bind h
    obtain ⟨ys', hxs, h⟩ := ok_of_bind h
    cases h
    rw [List.map_cons, List.map_cons, ih hxs, names x y hx]

/-- What is given last under a name. -/
def lastGiven? (infos : List (String × NamedInfo)) (key : String) : Option NamedInfo :=
  infos.findSomeRev? fun (a, info) => if compare a key = .eq then some info else none

theorem isSome_lastGiven? (infos : List (String × NamedInfo)) (key : String) :
    (lastGiven? infos key).isSome = infos.any (·.1 == key) := by
  rw [lastGiven?, List.findSomeRev?_eq_findSome?_reverse, Bool.eq_iff_iff, List.findSome?_isSome_iff, List.any_eq_true]
  simp

theorem get?_insert {β : Type} (m : TreeMap String β) (path other : String) (b : β) :
    (m.insert path b).get? other = if path = other then some b else m.get? other := by
  simp only [TreeMap.get?_eq_getElem?, TreeMap.getElem?_insert, Std.compare_eq_iff_eq]

/-- What a package adds does not depend on what is known before. -/
theorem loadPackage_ok {set0 : StubSet} (h : loadPackage set0 path stub = .ok set1) :
    ∃ (members : Members) (given : String → Option NamedInfo),
      (∀ key, (given key).isSome = stub.declares path key) ∧ ∀ set, ∃ set', loadPackage set path stub = .ok set' ∧
        (∀ other, set'.packages.get? other = if path = other then some members else set.packages.get? other) ∧
        ∀ key, set'.named.get? key = (given key).or (set.named.get? key) := by
  obtain ⟨types, htypes, h⟩ := ok_of_bind h
  obtain ⟨funcs, hfuncs, h⟩ := ok_of_bind h
  obtain ⟨vars, hvars, -⟩ := ok_of_bind h
  have names : types.map Prod.fst = stub.types.toList.map Prod.fst := by
    refine mapM_fst htypes fun (name, ty) y hy => ?_
    obtain ⟨info, -, hy⟩ := ok_of_bind hy
    cases hy
    rfl
  have any {α : Type} (ys : List (String × α)) (key : String) :
      ys.any (fun y => qualifiedName (lastElement path) y.1 == key) =
        (ys.map Prod.fst).any fun x => qualifiedName (lastElement path) x == key := by
    rw [List.any_map]
    rfl
  let infos := types.map fun (name, info) => (qualifiedName (lastElement path) name, info)
  let typeNames := types.map fun (name, _) => (name, Object.typeName (.named (lastElement path) name))
  refine ⟨TreeMap.ofList (typeNames ++ funcs ++ vars), lastGiven? infos, fun key => ?_, fun set =>
    ⟨⟨set.packages.insert path _, set.named.insertMany infos⟩, ?_, fun other => get?_insert _ _ _ _,
      fun key => TreeMap.getElem?_insertMany_list⟩⟩
  · rw [isSome_lastGiven?, List.any_map]
    exact (any types key).trans ((congrArg (List.any · _) names).trans (any _ key).symm)
  · simp only [loadPackage]
    rw [htypes, hfuncs, hvars]
    rfl

/-! ## Two runs -/

/-- The stubs with a package and those without it, when these packages have been loaded. -/
structure StubSet.Alike (gone : String) (packages : List (String × PackageStub)) (set set' : StubSet) : Prop where
  members : ∀ path, path ≠ gone → set'.packages.get? path = set.packages.get? path
  named : ∀ key, lastDeclarer? packages key ≠ some gone → set'.named.get? key = set.named.get? key

namespace StubSet

variable {gone : String} {set set' : StubSet} {packages : List (String × PackageStub)}

/-- A package is loaded in both runs, unless it is the one that is gone. -/
theorem Alike.loadPackage (alike : Alike gone packages set set')
    (h : CheckHandle.loadPackage set path stub = .ok set1) :
    (path = gone → Alike gone (packages ++ [(path, stub)]) set1 set') ∧ (path ≠ gone →
      ∃ set1', CheckHandle.loadPackage set' path stub = .ok set1' ∧ Alike gone (packages ++ [(path, stub)]) set1 set1') := by
  obtain ⟨members, given, declares, loads⟩ := loadPackage_ok h
  obtain ⟨_, h1, packages1, named1⟩ := loads set
  cases h.symm.trans h1
  have last (key : String) : lastDeclarer? (packages ++ [(path, stub)]) key =
      if (given key).isSome then some path else lastDeclarer? packages key := by
    rw [lastDeclarer?_append, lastDeclarer?_singleton, declares]
    split <;> rfl
  constructor
  · rintro rfl
    refine ⟨fun other ne => ?_, fun key kept => ?_⟩
    · rw [packages1, if_neg (Ne.symm ne)]
      exact alike.members other ne
    · rw [last] at kept
      rw [named1]
      cases hgiven : given key with
      | some info => exact absurd (by rw [hgiven]; rfl) kept
      | none =>
        rw [hgiven] at kept
        exact alike.named key kept
  · intro _
    obtain ⟨set1', h1', packages1', named1'⟩ := loads set'
    refine ⟨set1', h1', fun other ne => ?_, fun key kept => ?_⟩
    · rw [packages1, packages1', alike.members other ne]
    · rw [last] at kept
      rw [named1, named1']
      cases hgiven : given key with
      | some info => rfl
      | none =>
        rw [hgiven] at kept
        exact alike.named key kept

/-- The types that are known are those that the packages declare. -/
def Knows (packages : List (String × PackageStub)) (set : StubSet) : Prop :=
  ∀ key, (set.named.get? key).isSome = (lastDeclarer? packages key).isSome

theorem Knows.loadPackage (known : Knows packages set) (h : CheckHandle.loadPackage set path stub = .ok set1) :
    Knows (packages ++ [(path, stub)]) set1 := by
  intro key
  obtain ⟨members, given, declares, loads⟩ := loadPackage_ok h
  obtain ⟨_, h1, -, named1⟩ := loads set
  cases h.symm.trans h1
  rw [lastDeclarer?_append, lastDeclarer?_singleton, ← declares, named1, Option.isSome_or, Option.isSome_or, known]
  cases (given key).isSome <;> rfl

theorem Alike.foldlM (alike : Alike gone packages set set') (known : Knows packages set)
    (h : more.foldlM (fun set p => CheckHandle.loadPackage set p.1 p.2) set = .ok o) :
    ∃ o', (more.filter (·.1 != gone)).foldlM (fun set p => CheckHandle.loadPackage set p.1 p.2) set' = .ok o' ∧
      Alike gone (packages ++ more) o o' ∧ Knows (packages ++ more) o := by
  induction more generalizing packages set set' with
  | nil =>
    cases h
    exact ⟨set', rfl, by rwa [List.append_nil], by rwa [List.append_nil]⟩
  | cons p more ih =>
    obtain ⟨path, stub⟩ := p
    rw [List.foldlM_cons] at h
    obtain ⟨set1, hp, h⟩ := ok_of_bind h
    rw [List.append_cons]
    obtain ⟨left, loaded⟩ := alike.loadPackage hp
    by_cases hpath : path = gone
    · rw [List.filter_cons_of_neg (by simpa using hpath)]
      exact ih (left hpath) (known.loadPackage hp) h
    · obtain ⟨set1', hp', alike1⟩ := loaded hpath
      rw [List.filter_cons_of_pos (by simpa using hpath), List.foldlM_cons]
      simp only [hp']
      exact ih alike1 (known.loadPackage hp) h

/-- A file is loaded without one of its packages. -/
theorem load_without {file : StubFile} (h : file.load = .ok o) (gone : String) :
    ∃ o', (file.without gone).load = .ok o' ∧ Alike gone file.toList o o' ∧ Knows file.toList o := by
  have start : Alike gone [] ({} : StubSet) {} := ⟨fun _ _ => rfl, fun _ _ => rfl⟩
  have empty : Knows [] ({} : StubSet) := fun key => by
    rw [show ({} : StubSet).named = ∅ from rfl, TreeMap.get?_eq_getElem?, TreeMap.getElem?_emptyc]
    rfl
  have whole := start.foldlM empty h
  rwa [List.nil_append, ← TreeMap.toList_filter (f := fun other _ => other != gone)] at whole

theorem get?_merge_named (set other : StubSet) (key : String) :
    (set.merge other).named.get? key = (other.named.get? key).or (set.named.get? key) := by
  have mem (info : NamedInfo) : (key, info) ∈ other.named.toList ↔ other.named.get? key = some info :=
    TreeMap.mem_toList_iff_getElem?_eq_some
  cases h : other.named.get? key with
  | some info =>
    exact TreeMap.getElem?_insertMany_list_of_mem (Std.compare_eq_iff_eq.mpr rfl) TreeMap.distinct_keys_toList
      ((mem info).mpr h)
  | none =>
    refine TreeMap.getElem?_insertMany_list_of_contains_eq_false (Bool.eq_false_iff.mpr fun contains => ?_)
    obtain ⟨⟨_, info⟩, hp, rfl⟩ := List.mem_map.mp (List.contains_iff_mem.mp contains)
    rw [(mem info).mp hp] at h
    cases h

/-- The members of a package are extended, those of the others stay. -/
theorem get?_merge_packages (set other : StubSet) (path : String) :
    (set.merge other).packages.get? path = match other.packages.get? path with
      | none => set.packages.get? path
      | some members => some ((set.packages.getD path ∅).insertMany members.toList) := by
  have mem (members : Members) : (path, members) ∈ other.packages.toList ↔ other.packages.get? path = some members :=
    TreeMap.mem_toList_iff_getElem?_eq_some
  have distinct := TreeMap.distinct_keys_toList (t := other.packages)
  let step (packages : TreeMap String Members) (p : String × Members) :=
    packages.insert p.1 ((packages.getD p.1 ∅).insertMany p.2.toList)
  have away {l : List (String × Members)} (h : ∀ p ∈ l, p.1 ≠ path) (m : TreeMap String Members) :
      (l.foldl step m).get? path = m.get? path := by
    induction l generalizing m with
    | nil => rfl
    | cons p l ih =>
      obtain ⟨here, others⟩ := List.forall_mem_cons.mp h
      rw [List.foldl_cons, ih others, get?_insert, if_neg here]
  change (other.packages.foldl (fun packages path members => step packages (path, members)) set.packages).get? path = _
  rw [TreeMap.foldl_eq_foldl_toList]
  cases h : other.packages.get? path with
  | none =>
    refine away (fun p hp e => ?_) _
    subst e
    rw [(mem p.2).mp hp] at h
    cases h
  | some members =>
    obtain ⟨before, after, hsplit⟩ := List.append_of_mem ((mem members).mpr h)
    rw [hsplit, List.pairwise_append, List.pairwise_cons] at distinct
    obtain ⟨-, ⟨later, -⟩, earlier⟩ := distinct
    rw [hsplit, List.foldl_append, List.foldl_cons]
    refine (away (fun p hp e => later p hp (Std.compare_eq_iff_eq.mpr e.symm)) _).trans ?_
    have before' := away (fun p hp e => earlier p hp _ List.mem_cons_self (Std.compare_eq_iff_eq.mpr e)) set.packages
    refine ((get?_insert _ _ _ _).trans (if_pos rfl)).trans ?_
    rw [TreeMap.getD_eq_getD_getElem?, TreeMap.getD_eq_getD_getElem?, ← TreeMap.get?_eq_getElem?,
      ← TreeMap.get?_eq_getElem?]
    exact congrArg (fun m : Option Members => some ((m.getD ∅).insertMany members.toList)) before'

theorem Alike.merge (alike : Alike gone packages set set') {o' : StubSet}
    (loaded : Alike gone more o o') (known : Knows more o) :
    Alike gone (packages ++ more) (set.merge o) (set'.merge o') where
  members path ne := by
    have same : set'.packages.getD path ∅ = set.packages.getD path ∅ := by
      rw [TreeMap.getD_eq_getD_getElem?, TreeMap.getD_eq_getD_getElem?]
      exact congrArg (Option.getD · ∅) (alike.members path ne)
    rw [get?_merge_packages, get?_merge_packages, alike.members path ne, loaded.members path ne, same]
  named key kept := by
    rw [lastDeclarer?_append] at kept
    rw [get?_merge_named, get?_merge_named]
    cases hlast : lastDeclarer? more key with
    | none =>
      rw [hlast] at kept
      have undeclared : o.named.get? key = none := by
        rw [← Option.not_isSome_iff_eq_none, known, hlast]
        nofun
      rw [loaded.named key (by rw [hlast]; nofun), undeclared]
      exact alike.named key kept
    | some path =>
      rw [hlast] at kept
      have declared : (o.named.get? key).isSome = true := by rw [known, hlast]; rfl
      obtain ⟨info, hinfo⟩ := Option.isSome_iff_exists.mp declared
      rw [loaded.named key (by rw [hlast]; exact kept), hinfo]
      rfl

theorem Alike.mergeAll (alike : Alike gone packages set set') {files : List StubFile} (h : set.mergeAll files = .ok o) :
    ∃ o', set'.mergeAll (files.map (·.without gone)) = .ok o' ∧
      Alike gone (packages ++ files.flatMap TreeMap.toList) o o' := by
  induction files generalizing packages set set' with
  | nil =>
    cases h
    exact ⟨set', rfl, by rwa [List.flatMap_nil, List.append_nil]⟩
  | cons file files ih =>
    rw [StubSet.mergeAll, List.foldlM_cons] at h
    obtain ⟨merged, hmerged, h⟩ := ok_of_bind h
    obtain ⟨loaded, hload, hmerged⟩ := ok_of_bind hmerged
    cases hmerged
    obtain ⟨loaded', hload', alike', known⟩ := load_without hload gone
    obtain ⟨o', rest, final⟩ := ih (alike.merge alike' known) h
    refine ⟨o', ?_, by rwa [List.flatMap_cons, ← List.append_assoc]⟩
    rw [List.map_cons, StubSet.mergeAll, List.foldlM_cons, hload']
    exact rest

end StubSet

/-! ## What is found -/

/-- From these types one comes, by what they stand for and what they embed, to these types again, and
to declared types with such names only. -/
structure NamedTypes.Closed (types : NamedTypes) (K : String → Prop) (S : Ty → Prop) : Prop where
  key : ∀ package name, S (.named package name) → K (qualifiedName package name)
  under : ∀ package name info u, S (.named package name) → types.get? (qualifiedName package name) = some info →
    info.underlying = some u → S u
  pointer : ∀ t, S (.pointer t) → S t
  field : ∀ fields f, S (.struct fields) → f ∈ fields → f.embedded = true → S f.ty
  embed : ∀ methods embeds t, S (.interface methods embeds) → t ∈ embeds → S t

namespace NamedTypes.Closed

variable {types types' : NamedTypes} {K : String → Prop} {S : Ty → Prop} (closed : types.Closed K S)
  (same : ∀ key, K key → types'.get? key = types.get? key)

include closed same

theorem follow (steps : Nat) (ht : S t) :
    types'.follow steps t = types.follow steps t ∧ ∀ u, types.follow steps t = some u → S u := by
  induction steps generalizing t with
  | zero => exact ⟨rfl, nofun⟩
  | succ steps ih =>
    cases t with
    | named package name =>
      rw [NamedTypes.follow, NamedTypes.follow, same _ (closed.key _ _ ht)]
      cases hinfo : types.get? (qualifiedName package name) with
      | none => exact ⟨rfl, nofun⟩
      | some info =>
        cases hunder : info.underlying with
        | none => simp [hunder]
        | some u => simpa [hunder] using ih (closed.under _ _ _ _ ht hinfo hunder)
    | _ => exact ⟨rfl, fun u hu => Option.some.inj hu ▸ ht⟩

theorem memberWithin {info info' : TypeInfo} (hinfo : info.named = types) (hinfo' : info'.named = types')
    (name : String) (depth : Nat) (ht : S t) :
    info'.memberWithin name depth t = info.memberWithin name depth t := by
  induction depth generalizing t with
  | zero => rfl
  | succ depth ih =>
    have hbase : S t.pointee := by
      cases t with
      | pointer inner => exact closed.pointer _ ht
      | _ => exact ht
    obtain ⟨under, reached⟩ := closed.follow same 16 hbase
    have under' : info'.underlying t.pointee = info.underlying t.pointee := by
      rw [TypeInfo.underlying, TypeInfo.underlying, hinfo, hinfo', under]
    have own : info'.ownMembers name t = info.ownMembers name t := by
      unfold TypeInfo.ownMembers
      rw [under', hinfo, hinfo']
      cases base : t.pointee with
      | named package name =>
        have found := same _ (closed.key _ _ (base ▸ hbase))
        simp only [Ty.key?, Option.bind_eq_bind, Option.bind_some, found]
      | _ => rfl
    have embedded : info'.embedded t = info.embedded t := by rw [TypeInfo.embedded, TypeInfo.embedded, under']
    have inside : ∀ e ∈ info.embedded t, S e := by
      intro e he
      unfold TypeInfo.embedded at he
      split at he
      · rename_i fields hu
        obtain ⟨f, hf, rfl⟩ := List.mem_map.mp he
        obtain ⟨mem, marked⟩ := List.mem_filter.mp hf
        exact closed.field _ f (reached _ (by rw [← hu, TypeInfo.underlying, hinfo])) mem marked
      · rename_i methods embeds hu
        exact closed.embed _ _ e (reached _ (by rw [← hu, TypeInfo.underlying, hinfo])) he
      · cases he
    rw [TypeInfo.memberWithin_succ, TypeInfo.memberWithin_succ, own, embedded]
    rw [← List.head?_filterMap, ← List.head?_filterMap, List.filterMap_congr fun e he => ih (inside e he)]

end NamedTypes.Closed

/-- **Packages of stub files.** Stub files are loaded also without one of their packages, and every
other package keeps its members. A type keeps what it stands for and its fields and methods if one
comes from it only to declared types whose last declaration, by the last element of the path and the
name, is not one of the package that is gone. -/
theorem mergeAll_without {base set : StubSet} {files : List StubFile} (h : base.mergeAll files = .ok set)
    (gone : String) : ∃ set', base.mergeAll (files.map (·.without gone)) = .ok set' ∧
      (∀ path name, path ≠ gone → set'.member? path name = set.member? path name) ∧
      ∀ package S, (Checker.start set package).info.named.Closed
          (fun key => key = "error" ∨ lastDeclarer? (files.flatMap TreeMap.toList) key ≠ some gone) S →
        ∀ t, S t → (Checker.start set' package).info.underlying t = (Checker.start set package).info.underlying t ∧
          ∀ name, (Checker.start set' package).info.member t name = (Checker.start set package).info.member t name := by
  have start : StubSet.Alike gone [] base base := ⟨fun _ _ => rfl, fun _ _ => rfl⟩
  obtain ⟨set', h', alike⟩ := start.mergeAll h
  refine ⟨set', h', fun path name ne => ?_, fun package S closed t ht => ?_⟩
  · rw [StubSet.member?, StubSet.member?, alike.members path ne]
  · have same : ∀ key, key = "error" ∨ lastDeclarer? (files.flatMap TreeMap.toList) key ≠ some gone →
        (Checker.start set' package).info.named.get? key = (Checker.start set package).info.named.get? key := by
      intro key hkey
      change (set'.named.insert "error" _).get? key = (set.named.insert "error" _).get? key
      rw [get?_insert, get?_insert]
      split
      · rfl
      · rename_i declared
        exact alike.named key (hkey.resolve_left (Ne.symm declared))
    exact ⟨(closed.follow same 16 ht).1, fun name => closed.memberWithin same rfl rfl name 5 ht⟩

/-- A package that declares one type. -/
def declaring (name underlying : String) : PackageStub := ⟨∅, ∅, TreeMap.ofList [(name, (⟨underlying, ∅⟩ : TypeStub))]⟩

/-- A file with two packages whose paths end alike. One declares `T`, the other a type by this name. -/
def twins (name : String) : StubFile := TreeMap.ofList [("a/x", declaring "T" "int"), ("b/x", declaring name "string")]

/-- What `T` stands for in a file. -/
def standsFor (file : StubFile) : Option Ty :=
  match ({} : StubSet).mergeAll [file] with
  | .ok set => (Checker.start set "main").info.underlying (.named "x" "T")
  | .error _ => none

def isInt : Option Ty → Bool
  | some (.basic .int) => true
  | _ => false

/-- The other package declares another type. -/
theorem mergeAll_without_other : ∃ set set', ({} : StubSet).mergeAll [twins "U"] = .ok set ∧
    ({} : StubSet).mergeAll [(twins "U").without "b/x"] = .ok set' ∧
    (Checker.start set' "main").info.underlying (.named "x" "T") =
      (Checker.start set "main").info.underlying (.named "x" "T") := by
  have loads : isInt ((({} : StubSet).mergeAll [twins "U"]).toOption.bind fun set =>
      ((Checker.start set "main").info.named.get? "x.T").bind NamedInfo.underlying) = true := by decide +kernel
  have free : lastDeclarer? ([twins "U"].flatMap TreeMap.toList) "x.T" ≠ some "b/x" := by decide +kernel
  cases h : ({} : StubSet).mergeAll [twins "U"] with
  | error e =>
    rw [h] at loads
    cases loads
  | ok set =>
    rw [h] at loads
    obtain ⟨set', h', -, found⟩ := mergeAll_without h "b/x"
    refine ⟨set, set', rfl, h', (found "main" (fun t => t = .named "x" "T" ∨ t = .basic .int) ?_ _ (.inl rfl)).1⟩
    refine ⟨?_, ?_, ?_, ?_, ?_⟩
    · rintro _ _ (h | h) <;> cases h
      exact .inr free
    · rintro _ _ info u (h' | h') hinfo hu <;> cases h'
      replace hinfo : (Checker.start set "main").info.named.get? "x.T" = some info := hinfo
      simp only [Except.toOption, hinfo, Option.bind_some, hu, isInt] at loads
      split at loads
      · rename_i e
        exact .inr (Option.some.inj e)
      · cases loads
    · rintro _ (h | h) <;> cases h
    · rintro _ _ (h | h) <;> cases h
    · rintro _ _ _ (h | h) <;> cases h

/-- The other package declares a type of the same name, and `T` stands for that one. -/
theorem twins_collide : (standsFor (twins "T")).map Ty.text = some "string" ∧
    (standsFor ((twins "T").without "b/x")).map Ty.text = some "int" := by
  decide +kernel

end CheckHandle
