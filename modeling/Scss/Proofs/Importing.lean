import Scss.Proofs.Cleaning
import Scss.Proofs.Termination

/-!
# Where imported stylesheets are

Two computations follow a chain of imports. The resolver finds each stylesheet from where its
importer was found, under one of several names; and the base of the urls is put together from the
targets as they are written. Both should come to the same directory.

They do as long as each stylesheet is found in the directory that its target names (`Beside`): then
what the target has in front of its last slash is all that matters, whichever name it was found
under, and it makes no difference whether `..` is resolved step by step or at the end. An index is
not found there but one directory further down, and of this the base takes no notice.

What is on the stack of imports while a stylesheet is expanded is such a chain (`ImportChain`). This
is said with a probe that is run whenever an imported stylesheet begins: it makes no difference to a
compile if it goes unnoticed where the stack is a chain.
-/

namespace Scss

open UrlPath Text

/-! ## One import -/

namespace Resolver

/-- The path under which the index of a directory is found. -/
def indexUri (importer target : String) : String :=
  clean (directory importer ++ (target ++ "/_index.scss"))

/-- A stylesheet is found in the directory that its target names: the target is relative, its last
segment does not lead to another directory, and it is not the name of a directory with an index. -/
structure Beside (importer target : String) (found : ResolvedSource) : Prop where
  relative : startsWith target "/" = false
  ne_dot : (cutAfterLast '/' target).2 ≠ "."
  ne_dots : (cutAfterLast '/' target).2 ≠ ".."
  notIndex : endsWith target "/" = false → found.uri ≠ indexUri importer target

theorem mem_of_firstFound {files : Entries String} {uris : List String} {found : ResolvedSource}
    (h : firstFound files uris = some found) : found.uri ∈ uris := by
  induction uris with
  | nil => cases h
  | cons uri rest ih =>
      rw [firstFound] at h
      split at h
      · obtain rfl := Option.some.inj h
        exact List.mem_cons_self
      · exact List.mem_cons_of_mem uri (ih h)

/-- A stylesheet is known by the path that led to it. -/
theorem exists_candidate {files : Entries String} {importer target : String} {found : ResolvedSource}
    (h : ofEntries files importer target = .ok (some found)) :
    ∃ candidate ∈ candidates target, found.uri = clean (directory importer ++ candidate) := by
  obtain ⟨candidate, hmem, huri⟩ := List.mem_map.mp (mem_of_firstFound (Except.ok.inj h))
  exact ⟨candidate, hmem, huri.symm⟩

/-- A name with a character that is not a dot leads nowhere else. -/
theorem isLeaf_of_mem {name : List Char} (hslash : '/' ∉ name) {c : Char} (hc : c ∈ name)
    (hdot : c ≠ '.') : IsLeaf name := by
  refine ⟨hslash, fun h => ?_, fun h => ?_⟩
  · subst h
    exact hdot (List.mem_singleton.mp hc)
  · subst h
    exact hdot (by simpa using hc)

/-- What stands behind the last slash, unless it leads to another directory. -/
theorem isLeaf_name {path : String} (hdot : (cutAfterLast '/' path).2 ≠ ".")
    (hdots : (cutAfterLast '/' path).2 ≠ "..") : IsLeaf (cutAfterLast '/' path).2.toList :=
  ⟨(cutAfterLast_chars path).2.1, fun h => hdot (String.toList_inj.mp h),
    fun h => hdots (String.toList_inj.mp h)⟩

/-- Besides the index, all that is tried for an import is in the directory that its target names. -/
theorem eq_index_or_leaf {target candidate : String} (h : candidate ∈ candidates target)
    (hdot : (cutAfterLast '/' target).2 ≠ ".") (hdots : (cutAfterLast '/' target).2 ≠ "..") :
    candidate = target ++ "/_index.scss" ∨
      ∃ leaf : String, IsLeaf leaf.toList ∧ candidate = directory target ++ leaf := by
  have htarget := directory_append_name target
  have hname := isLeaf_name hdot hdots
  unfold candidates at h
  simp only [directory] at htarget ⊢
  generalize cutAfterLast '/' target = cut at h htarget hname ⊢
  obtain ⟨front, name⟩ := cut
  dsimp only at h htarget hname ⊢
  -- all that is added to the name keeps it the name of a file
  have hpartial : ∀ back : String, '/' ∉ back.toList → IsLeaf ("_" ++ name ++ back).toList := by
    intro back hback
    refine isLeaf_of_mem (c := '_') ?_ ?_ (by decide)
    · simp only [String.toList_append, List.mem_append, not_or]
      exact ⟨⟨by decide, hname.noSlash⟩, hback⟩
    · simp [String.toList_append]
  have hextended : IsLeaf (name ++ ".scss").toList := by
    refine isLeaf_of_mem (c := 's') ?_ ?_ (by decide)
    · simp only [String.toList_append, List.mem_append, not_or]
      exact ⟨hname.noSlash, by decide⟩
    · simp [String.toList_append]
  -- a name that ends in the extension is tried as it is and as a partial
  split at h
  · rcases List.mem_cons.mp h with rfl | h
    · exact Or.inr ⟨name, hname, htarget.symm⟩
    · obtain rfl := List.mem_singleton.mp h
      refine Or.inr ⟨"_" ++ name ++ "", hpartial "" (by decide), ?_⟩
      simp [String.append_assoc]
  · -- any other is tried with the extension as well, and then as an index
    simp only [List.mem_cons, List.not_mem_nil, or_false] at h
    rcases h with rfl | rfl | rfl | rfl
    · exact Or.inr ⟨name, hname, htarget.symm⟩
    · exact Or.inr ⟨name ++ ".scss", hextended, by rw [← String.append_assoc, htarget]⟩
    · exact Or.inr ⟨"_" ++ name ++ ".scss", hpartial ".scss" (by decide), by
        simp [String.append_assoc]⟩
    · exact Or.inl rfl

/-- A target that is the name of a directory. -/
theorem endsWith_slash {target : String} (h : endsWith target "/" = true) :
    directory target = target ∧ target ≠ "" := by
  obtain ⟨front, hfront⟩ := List.isSuffixOf_iff_suffix.mp h
  refine ⟨?_, fun hnil => ?_⟩
  · have hcut : cutAfterLast '/' target = (String.ofList (front ++ ['/']), String.ofList []) :=
      cutAfterLast_eq (Or.inr ⟨front, rfl⟩) List.not_mem_nil
        (by rw [List.append_nil]; exact hfront.symm)
    rw [directory, hcut, show front ++ ['/'] = target.toList from hfront, String.ofList_toList]
  · subst hnil
    simp at hfront

/-- **A stylesheet is found in the directory that its target names.** -/
theorem Beside.directory_uri {files : Entries String} {importer target : String}
    {found : ResolvedSource} (h : Beside importer target found)
    (hfound : ofEntries files importer target = .ok (some found)) :
    directory found.uri = clean (directory importer ++ directory target) := by
  obtain ⟨candidate, hcandidate, huri⟩ := exists_candidate hfound
  have himporter := isDirectory_directory importer
  have htarget := isDirectory_append himporter (isDirectory_directory target)
  rcases eq_index_or_leaf hcandidate h.ne_dot h.ne_dots with rfl | ⟨leaf, hleaf, rfl⟩
  · -- then the target is the name of a directory, and the slash behind it is one too many
    have hends : endsWith target "/" = true := by
      by_contra hends
      exact h.notIndex (Bool.eq_false_of_not_eq_true hends) huri
    obtain ⟨hname, hne⟩ := endsWith_slash hends
    rw [hname] at htarget ⊢
    have hslash := isDirectory_append htarget (y := "/") (Or.inr ⟨[], rfl⟩)
    have hsplit : directory importer ++ (target ++ "/_index.scss") =
        directory importer ++ target ++ "/" ++ "_index.scss" := by
      simp [String.append_assoc]
    rw [huri, hsplit, directory_clean_append hslash ⟨by decide, by decide, by decide⟩,
      clean_append_slash htarget fun h => hne ?_]
    exact String.toList_inj.mp (List.append_eq_nil_iff.mp
      (String.toList_append.symm.trans (congrArg String.toList h))).2
  · rw [huri, ← String.append_assoc, directory_clean_append htarget hleaf]

/-- An index is found in the directory that has the name of the target. -/
theorem directory_indexUri {importer target : String}
    (hname : IsLeaf (cutAfterLast '/' target).2.toList) (hne : (cutAfterLast '/' target).2 ≠ "") :
    directory (indexUri importer target) =
      clean (directory importer ++ directory target) ++ ((cutAfterLast '/' target).2 ++ "/") := by
  have hdirectory :=
    isDirectory_append (isDirectory_directory importer) (isDirectory_directory target)
  have hown := isDirectory_append hdirectory (y := (cutAfterLast '/' target).2 ++ "/")
    (Or.inr ⟨_, String.toList_append⟩)
  have hsplit : directory importer ++ (target ++ "/_index.scss") =
      directory importer ++ directory target ++ ((cutAfterLast '/' target).2 ++ "/") ++
        "_index.scss" := by
    conv_lhs => rw [← directory_append_name target]
    simp [String.append_assoc]
  rw [indexUri, hsplit, directory_clean_append hown ⟨by decide, by decide, by decide⟩,
    clean_append_segment hdirectory hname hne]

end Resolver

/-! ## Chains of imports -/

/-- The stack of imports after a chain of them, each of which satisfies `P`. -/
inductive ImportChain (files : Entries String) (root : String)
    (P : (importer target : String) → ResolvedSource → Prop) : List ImportFrame → Prop where
  | root : ImportChain files root P [⟨root, ""⟩]
  | imported {outer : ImportFrame} {below : List ImportFrame} {target : String}
      {found : ResolvedSource} (h : ImportChain files root P (outer :: below))
      (hfound : Resolver.ofEntries files outer.uri target = .ok (some found))
      (hP : P outer.uri target found) :
      ImportChain files root P
        (⟨found.uri, importedDirectory outer.base target⟩ :: outer :: below)

/-- The base of a stylesheet leads from the directory of the root to its own. -/
structure ImportFrame.IsBased (root : String) (f : ImportFrame) : Prop where
  isDirectory : IsDirectory f.base.toList
  relative : isAbsolute f.base.toList = false
  leads : clean (directory root ++ f.base) = clean (directory f.uri)

theorem ImportFrame.isBased_root (root : String) : IsBased root ⟨root, ""⟩ :=
  ⟨IsDirectory.nil, rfl, by rw [String.append_empty]⟩

/-- The base of an imported stylesheet that is relative. -/
theorem importedDirectory_of_relative {target : String} (h : startsWith target "/" = false)
    (base : String) : importedDirectory base target = clean (base ++ directory target) := by
  have hdirectory : startsWith (directory target) "/" = false := by
    rw [startsWith_slash] at h ⊢
    exact isAbsolute_directory h
  rw [importedDirectory, hdirectory]
  rfl

/-- A relative path leads to the same place from directories that are the same. -/
theorem clean_append_congr {x y path : String} (hx : IsDirectory x.toList)
    (hy : IsDirectory y.toList) (h : clean x = clean y) (hpath : IsDirectory path.toList)
    (hrelative : isAbsolute path.toList = false) : clean (x ++ path) = clean (y ++ path) := by
  rw [← clean_clean_append hx hpath hrelative, h, clean_clean_append hy hpath hrelative]

namespace ImportFrame.IsBased

variable {root target : String} {outer : ImportFrame} (houter : outer.IsBased root)
include houter

theorem isDirectory_root : IsDirectory (directory root ++ outer.base).toList :=
  isDirectory_append (isDirectory_directory root) houter.isDirectory

variable (hrelative : startsWith target "/" = false)
include hrelative

/-- What is put behind the base is relative, as the base is. -/
theorem own : IsDirectory (outer.base ++ directory target).toList ∧
    isAbsolute (outer.base ++ directory target).toList = false := by
  rw [startsWith_slash] at hrelative
  refine ⟨isDirectory_append houter.isDirectory (isDirectory_directory target), ?_⟩
  rw [String.toList_append]
  exact isAbsolute_append_eq_false houter.relative (isAbsolute_directory hrelative)

/-- **The target goes on from the base as it does from the importer.** -/
theorem goesOn : clean (directory root ++ importedDirectory outer.base target) =
    clean (directory outer.uri ++ directory target) := by
  obtain ⟨hown, hownRelative⟩ := houter.own hrelative
  calc clean (directory root ++ importedDirectory outer.base target)
    _ = clean (directory root ++ clean (outer.base ++ directory target)) := by
        rw [importedDirectory_of_relative hrelative]
    _ = clean (directory root ++ outer.base ++ directory target) := by
        rw [clean_append_clean (isDirectory_directory root) hown hownRelative, String.append_assoc]
    _ = clean (directory outer.uri ++ directory target) :=
        clean_append_congr houter.isDirectory_root (isDirectory_directory outer.uri) houter.leads
          (isDirectory_directory target)
          (isAbsolute_directory ((startsWith_slash target).symm.trans hrelative))

/-- **A stylesheet that is found in the directory its target names is based** if its importer is. -/
theorem imported {uri : String}
    (h : directory uri = clean (directory outer.uri ++ directory target)) :
    IsBased root ⟨uri, importedDirectory outer.base target⟩ := by
  obtain ⟨hown, hownRelative⟩ := houter.own hrelative
  have hleads := houter.goesOn hrelative
  rw [importedDirectory_of_relative hrelative] at hleads ⊢
  refine ⟨isDirectory_clean hown, ?_, ?_⟩
  · rw [toList_clean, isAbsolute_cleanChars, hownRelative]
  · rw [hleads, h, clean_clean]

omit hrelative in
/-- **A rebased url leads from the root to where the url leads from the stylesheet.** -/
theorem leads_rebase {url : String} (htrim : trim url = url) (hfixed : isFixed url = false)
    (hurl : IsLeaf (cutAfterLast '/' url).2.toList) :
    clean (directory root ++ rebase outer.base url) = clean (directory outer.uri ++ url) := by
  have hroot := isDirectory_directory root
  have hrelative : startsWith url "/" = false := by
    simp only [isFixed, Bool.or_eq_false_iff] at hfixed
    exact hfixed.1.1.1.2
  have habsolute := isAbsolute_directory ((startsWith_slash url).symm.trans hrelative)
  obtain ⟨hown, hownRelative⟩ := houter.own hrelative
  -- behind the directory of the url, its last segment stays as it is
  have hleaf : ∀ {x : String}, IsDirectory x.toList →
      clean (x ++ url) = clean (x ++ directory url) ++ (cutAfterLast '/' url).2 := by
    intro x hx
    rw [← clean_append_leaf (isDirectory_append hx (isDirectory_directory url)) hurl,
      String.append_assoc, directory_append_name]
  have hrebased : clean (directory root ++ rebase outer.base url) =
      clean (directory root ++ outer.base ++ url) := by
    unfold rebase
    dsimp only
    rw [htrim, hfixed, Bool.or_false]
    split
    next hempty =>
      rw [String.isEmpty_iff.mp hempty, String.append_empty]
    · rw [hleaf houter.isDirectory, ← String.append_assoc,
        clean_append_leaf (isDirectory_append hroot (isDirectory_clean hown)) hurl,
        clean_append_clean hroot hown hownRelative, hleaf houter.isDirectory_root,
        String.append_assoc]
  rw [hrebased, hleaf houter.isDirectory_root, hleaf (isDirectory_directory outer.uri),
    clean_append_congr houter.isDirectory_root (isDirectory_directory outer.uri) houter.leads
      (isDirectory_directory url) habsolute]

end ImportFrame.IsBased

/-- **Along a chain of imports that are found beside each other, every stylesheet is based**, and
where it was found is a clean path. -/
theorem ImportChain.isBased {files : Entries String} {root : String} {f : ImportFrame}
    {below : List ImportFrame} (h : ImportChain files root Resolver.Beside (f :: below)) :
    f.IsBased root ∧ (below ≠ [] → clean (directory f.uri) = directory f.uri) := by
  generalize hstack : f :: below = stack at h
  induction h generalizing f below with
  | root =>
      obtain ⟨rfl, rfl⟩ := List.cons.inj hstack
      exact ⟨ImportFrame.isBased_root root, fun hne => absurd rfl hne⟩
  | @imported outer below' target found hchain hfound hbeside ih =>
      obtain ⟨rfl, rfl⟩ := List.cons.inj hstack
      have huri := hbeside.directory_uri hfound
      refine ⟨(ih rfl).1.imported hbeside.relative huri, fun _ => ?_⟩
      show clean (directory found.uri) = directory found.uri
      rw [huri, clean_clean]

/-- The stylesheet on top of the stack is the one that a context knows. -/
theorem ImportChain.exists_top {files : Entries String} {root : String}
    {P : (importer target : String) → ResolvedSource → Prop} {c : Context}
    (h : ImportChain files root P c.imports) :
    ∃ f below, c.imports = f :: below ∧ c.urlBase = f.base ∧ c.currentUri = f.uri := by
  unfold Context.urlBase Context.currentUri
  generalize c.imports = stack at h
  cases h with
  | root => exact ⟨_, _, rfl, rfl, rfl⟩
  | imported _ _ _ => exact ⟨_, _, rfl, rfl, rfl⟩

/-! ## The chain on the stack -/

namespace Flatten

open Compile Evaluation

section
variable (probe : Compile Unit)

/-- Expansion by recursion on the imports that may still nest, with a probe before the statements of
each imported stylesheet. -/
def importAnnounced (calls : Nat) (mixinBody : Nat → Expansion) : Nat → Expansion
  | 0 => expandContents calls (mixinBody 0) fun _ _ => do
    throw (.limitExceeded .imports (← get).maxImportDepth)
  | imports + 1 => expandContents calls (mixinBody (imports + 1)) fun blocks nodes => do
    probe
    importAnnounced calls mixinBody imports blocks nodes

/-- Expansion by recursion on the calls that may still nest, where imports are announced. -/
def expandAnnounced : Nat → Nat → Expansion
  | 0, imports => importAnnounced probe 0 (fun _ _ _ => return []) imports
  | calls + 1, imports => importAnnounced probe (calls + 1) (expandAnnounced calls) imports

/-- Where statements are expanded so. -/
def announcedSite (calls imports blocks : Nat) : Site where
  calls := calls
  blocks := blocks
  mixinBody := match calls with
    | 0 => fun _ _ => return []
    | calls + 1 => expandAnnounced probe calls imports
  importedBody := match imports with
    | 0 => fun _ => do throw (.limitExceeded .imports (← get).maxImportDepth)
    | imports + 1 => fun nodes => do
      probe
      expandAnnounced probe calls imports blocks nodes
  contentBody := match blocks with
    | 0 => fun _ => return []
    | below + 1 => expandAnnounced probe calls imports below

theorem expandAnnounced_eq_flattenNodes (calls imports blocks : Nat) (nodes : List Node) :
    expandAnnounced probe calls imports blocks nodes =
      flattenNodes (announcedSite probe calls imports blocks) nodes := by
  cases calls <;> cases imports <;> cases blocks <;> rfl

end

/-- A context with a stack of imports, in which files are found. -/
structure OnStack (files : Entries String) (stack : List ImportFrame) (c : Context) : Prop where
  resolver : c.resolver = Resolver.ofEntries files
  imports : c.imports = stack

/-- Nothing but imports changes the stack of imports. -/
theorem nesting_onStack (files : Entries String) (stack : List ImportFrame) :
    Nesting (fun _ => True) (OnStack files stack) where
  keeping := {
    kind := .all
    value _ _ := trivial
    define _ _ hc _ := ⟨hc.resolver, hc.imports⟩
    assign _ _ hc _ := ⟨hc.resolver, hc.imports⟩
    setGlobal _ _ hc _ := ⟨hc.resolver, hc.imports⟩
    warn _ _ hc := ⟨hc.resolver, hc.imports⟩
    entered hc := ⟨hc.resolver, hc.imports⟩
    left hc := ⟨hc.resolver, hc.imports⟩
    setParent _ hc := ⟨hc.resolver, hc.imports⟩
    defineMixin _ hc := ⟨hc.resolver, hc.imports⟩
    defineFunction _ hc := ⟨hc.resolver, hc.imports⟩
    addExtension _ hc := ⟨hc.resolver, hc.imports⟩ }
  enterCall hc h := by
    obtain ⟨-, rfl⟩ := Context.of_enterCall h
    exact ⟨hc.resolver, hc.imports⟩
  exitCall hc := ⟨hc.resolver, hc.imports⟩
  pushContent _ hc := ⟨hc.resolver, hc.imports⟩
  popContent hc := ⟨hc.resolver, hc.imports⟩
  hide _ hc := ⟨hc.resolver, hc.imports⟩
  restore _ _ hd := ⟨hd.resolver, hd.imports⟩

/-- What is entered and left again when a stylesheet is imported. -/
theorem importing_agrees {files : Entries String} {stack : List ImportFrame} (hstack : stack ≠ [])
    (uri base : String) {m m' : Compile (List Node)}
    (h : Agree (OnStack files (⟨uri, base⟩ :: stack)) (AllCarry fun _ => True) m m') :
    Agree (OnStack files stack) (AllCarry fun _ => True) (importing uri base m)
      (importing uri base m') := by
  refine Agree.importing uri base h (fun hc hentered => ?_) fun {d} hd => ?_
  · obtain ⟨-, rfl⟩ := Context.of_enterImport hentered
    exact ⟨hc.resolver, congrArg _ hc.imports⟩
  · obtain ⟨top, below, rfl⟩ := List.exists_cons_of_ne_nil hstack
    rw [Context.exitImport, hd.imports]
    exact ⟨hd.resolver, rfl⟩

section
variable {files : Entries String} {root : String} {probe : Compile Unit}
  (hprobe : ∀ f below c, below ≠ [] → ImportChain files root (fun _ _ _ => True) (f :: below) →
    OnStack files (f :: below) c → probe.outcome c = (.ok (), c))
include hprobe

/-- An imported stylesheet comes to the same behind a probe, if its stack is a chain. -/
theorem probe_agrees {f : ImportFrame} {below : List ImportFrame} (hbelow : below ≠ [])
    (hchain : ImportChain files root (fun _ _ _ => True) (f :: below))
    {m m' : Compile (List Node)}
    (h : Agree (OnStack files (f :: below)) (AllCarry fun _ => True) m m') :
    Agree (OnStack files (f :: below)) (AllCarry fun _ => True) m (do probe; m') := by
  intro c hc
  rw [outcome_bind_ok (hprobe f below c hbelow hchain hc)]
  exact h c hc

/-- **The stack of imports is always a chain.** -/
theorem expandAnnounced_agrees {stack : List ImportFrame}
    (hchain : ImportChain files root (fun _ _ _ => True) stack) (calls imports blocks : Nat)
    (nodes : List Node) : Agree (OnStack files stack) (AllCarry fun _ => True)
      (expand calls imports blocks nodes) (expandAnnounced probe calls imports blocks nodes) := by
  have hI := nesting_onStack files stack
  have hstack : stack ≠ [] := by cases hchain <;> exact List.cons_ne_nil _ _
  have hsites : SitesAgree (fun _ => True) (OnStack files stack) (siteOf calls imports blocks)
      (announcedSite probe calls imports blocks) := by
    refine hI.sites rfl rfl (fun blocks body => ?_) (fun body => ?_)
      fun {c target found} hc hfound body => ?_
    · -- the body of a mixin stays in the stylesheet that is on top
      cases calls with
      | zero => exact Agree.pure allCarry_nil
      | succ calls => exact expandAnnounced_agrees hchain calls imports blocks body
    · -- so does the block of a call, which has one level less below it
      cases blocks with
      | zero => exact Agree.pure allCarry_nil
      | succ below => exact expandAnnounced_agrees hchain calls imports below body
    · -- the stack goes on with the stylesheet that is found from the one on top of it
      obtain ⟨outer, below, rfl⟩ := List.exists_cons_of_ne_nil hstack
      have hresolve : Resolver.ofEntries files outer.uri target = .ok (some found) := by
        rw [← hfound, Context.resolve, hc.resolver, Context.currentUri, hc.imports]
        rfl
      have hbase : c.urlBase = outer.base := by
        rw [Context.urlBase, hc.imports]
        rfl
      have hnext := ImportChain.imported hchain hresolve trivial
      have hbody : Agree (OnStack files (⟨found.uri, importedDirectory outer.base target⟩ :: outer ::
          below)) (AllCarry fun _ => True) ((siteOf calls imports blocks).importedBody body)
          ((announcedSite probe calls imports blocks).importedBody body) := by
        cases imports with
        | zero => exact Agree.bind Agree.get fun c _ => Agree.throw _
        | succ imports =>
            exact probe_agrees hprobe (List.cons_ne_nil outer below) hnext
              (expandAnnounced_agrees hnext calls imports blocks body)
      rw [hbase]
      exact importing_agrees (List.cons_ne_nil outer below) _ _ hbody
  rw [expand_eq_flattenNodes, expandAnnounced_eq_flattenNodes]
  exact flattenNodes_agrees hI.keeping hsites nodes
termination_by (calls, imports, blocks)

end

/-- Expands the statements of a stylesheet, and announces imports. -/
def expandRoot (probe : Compile Unit) (nodes : List Node) : Compile (List Node) := do
  let c ← get
  expandAnnounced probe (callsLeft c) (c.maxImportDepth + 1) c.contents.length nodes

end Flatten

open Flatten Compile in
/--
**The base of the urls names the directory of the stylesheet**, as long as every stylesheet is found in
the directory that its target names.

While an imported stylesheet is expanded, the stack of imports is a chain: a compile does what is done
with a probe before each imported stylesheet, as long as it goes unnoticed where the stack is one. And
along a chain of imports that are relative and found beside each other, the directory of the root with
the base behind it is the directory of the stylesheet, so that a rebased url leads to the resource that
it leads to from there.

Where a stylesheet is found as an index, its directory is one further down: it has the name of the
target, which is missing from the base.
-/
theorem url_base_names_directory (files : Entries String) (root : String) :
    (∀ (s : Stylesheet) (c : Context) (probe : Compile Unit), s.uri = root →
      c.resolver = Resolver.ofEntries files →
      (∀ d, d.resolver = Resolver.ofEntries files → 2 ≤ d.imports.length →
        ImportChain files root (fun _ _ _ => True) d.imports → probe.outcome d = (.ok (), d)) →
      (s.compileBy (expandRoot probe)).outcome c = s.compile.outcome c) ∧
    (∀ d : Context, 2 ≤ d.imports.length → ImportChain files root Resolver.Beside d.imports →
      clean (directory root ++ d.urlBase) = directory d.currentUri ∧
      ∀ url, trim url = url → isFixed url = false → (cutAfterLast '/' url).2 ∉ [".", ".."] →
        clean (directory root ++ rebase d.urlBase url) = clean (directory d.currentUri ++ url)) ∧
    (∀ (d : Context) (target : String) (found : ResolvedSource),
      ImportChain files root Resolver.Beside d.imports →
      startsWith target "/" = false → (cutAfterLast '/' target).2 ∉ ["", ".", ".."] →
      found.uri = Resolver.indexUri d.currentUri target →
        directory found.uri = clean (directory root ++ importedDirectory d.urlBase target) ++
          ((cutAfterLast '/' target).2 ++ "/")) := by
  refine ⟨fun s c probe hroot hresolver hprobe => ?_, fun d hlength hchain => ?_,
    fun d target found hchain hrelative hname hindex => ?_⟩
  · refine Stylesheet.outcome_compileBy rfl ?_
    have hstart : ImportChain files root (fun _ _ _ => True) [⟨s.uri, ""⟩] := by
      rw [hroot]
      exact .root
    -- below the root there is an import, so that the probe is asked only where the stack is a chain
    have hprobe' : ∀ f below d, below ≠ [] → ImportChain files root (fun _ _ _ => True) (f :: below) →
        OnStack files (f :: below) d → probe.outcome d = (.ok (), d) := by
      intro f below d hbelow hd hstack
      refine hprobe d hstack.resolver ?_ (hstack.imports.symm ▸ hd)
      rw [hstack.imports, List.length_cons]
      exact Nat.succ_le_succ (List.length_pos_of_ne_nil hbelow)
    exact (expandAnnounced_agrees hprobe' hstart _ _ _ s.body (c.enterRoot s.uri)
      ⟨hresolver, rfl⟩).1
  · obtain ⟨f, below, himports, hbase, huri⟩ := hchain.exists_top
    rw [himports] at hchain hlength
    obtain ⟨hbased, hclean⟩ := hchain.isBased
    rw [hbase, huri]
    refine ⟨hbased.leads.trans (hclean fun hnil => ?_), fun url htrim hfixed hname =>
      hbased.leads_rebase htrim hfixed (Resolver.isLeaf_name ?_ ?_)⟩
    · subst hnil
      exact absurd hlength (by simp)
    · exact fun h => hname (h ▸ List.mem_cons_self)
    · exact fun h => hname (h ▸ List.mem_cons_of_mem _ List.mem_cons_self)
  · obtain ⟨f, below, himports, hbase, huri⟩ := hchain.exists_top
    rw [himports] at hchain
    obtain ⟨hbased, -⟩ := hchain.isBased
    obtain ⟨hne, hdots⟩ := not_or.mp (List.mem_cons.not.mp hname)
    have hleaf : IsLeaf (cutAfterLast '/' target).2.toList := Resolver.isLeaf_name
      (fun h => hdots (h ▸ List.mem_cons_self))
      fun h => hdots (h ▸ List.mem_cons_of_mem _ List.mem_cons_self)
    rw [hindex, Resolver.directory_indexUri hleaf hne, hbase, huri, hbased.goesOn hrelative]

/-- Two stylesheets of a library. -/
def librarySources : Entries String := [("css/lib/_part.scss", ""), ("css/base.scss", "")]

/-- A stylesheet that imports one of them. -/
def libraryUser : Stylesheet := ⟨"css/main.scss", none, [
  .mk default (.importFile (.quoted "lib/part" '"') none)]⟩

/-- A context in which they are found. -/
def libraryContext : Context :=
  { Context.isolated with resolver := Resolver.ofEntries librarySources }

/-- The one that is imported has imported the other in turn. -/
def inLibrary : Context := { libraryContext with
  imports := [⟨"css/base.scss", ""⟩, ⟨"css/lib/_part.scss", "lib/"⟩, ⟨"css/main.scss", ""⟩] }

/-- `css/main.scss` imports `lib/part`, and this imports `../base`. -/
theorem inLibrary_chain :
    ImportChain librarySources "css/main.scss" Resolver.Beside inLibrary.imports := by
  have hpart := @ImportChain.imported librarySources "css/main.scss" Resolver.Beside
    ⟨"css/main.scss", ""⟩ [] "lib/part" ⟨"css/lib/_part.scss", ""⟩ .root (by decide +kernel)
    ⟨by decide, by decide, by decide, fun _ => by decide⟩
  have hbase := @ImportChain.imported librarySources "css/main.scss" Resolver.Beside _ _ "../base"
    ⟨"css/base.scss", ""⟩ hpart (by decide +kernel)
    ⟨by decide, by decide, by decide, fun _ => by decide⟩
  have hvalues : importedDirectory (importedDirectory "" "lib/part") "../base" = "" ∧
      importedDirectory "" "lib/part" = "lib/" := by decide
  rwa [hvalues.1, hvalues.2] at hbase

/-- The root stylesheet alone. -/
def atRoot : Context := libraryContext.enterRoot "css/main.scss"

/-- Fails unless a stylesheet has been imported. -/
def countImports : Compile Unit := do
  let c ← get
  if 2 ≤ c.imports.length then return () else throw (.limitExceeded .imports 0)

open Flatten Compile in
/-- Two imports away from the root, the base leads to the directory of the stylesheet again; and an
index of a directory `lib` beside the root would be in that directory. -/
theorem inLibrary_based :
    ((libraryUser.compileBy (expandRoot countImports)).outcome libraryContext).2.importCount = 1 ∧
    (2 ≤ inLibrary.imports.length ∧
      ImportChain librarySources "css/main.scss" Resolver.Beside inLibrary.imports ∧
      clean (directory "css/main.scss" ++ inLibrary.urlBase) = directory inLibrary.currentUri ∧
      clean (directory "css/main.scss" ++ rebase inLibrary.urlBase "x.png") =
        clean (directory inLibrary.currentUri ++ "x.png")) ∧
    (ImportChain librarySources "css/main.scss" Resolver.Beside atRoot.imports ∧
      directory "css/lib/_index.scss" =
        clean (directory "css/main.scss" ++ importedDirectory atRoot.urlBase "lib") ++
          ((cutAfterLast '/' "lib").2 ++ "/")) := by
  obtain ⟨hprobing, hbased, hindex⟩ := url_base_names_directory librarySources "css/main.scss"
  have hlength : 2 ≤ inLibrary.imports.length := by decide
  obtain ⟨hleads, hurls⟩ := hbased inLibrary hlength inLibrary_chain
  refine ⟨?_, ⟨hlength, inLibrary_chain, hleads, ?_⟩, .root, ?_⟩
  · rw [hprobing libraryUser libraryContext countImports rfl rfl fun d _ hd _ => ?_]
    · decide +kernel
    · rw [countImports, outcome_get_bind, if_pos hd]
      rfl
  · exact hurls "x.png" (by decide) (by decide) (by decide)
  · exact hindex atRoot "lib" ⟨"css/lib/_index.scss", ""⟩ .root (by decide) (by decide) (by decide)

/-- The index of a directory beside the root is not in the directory that the base names. -/
theorem index_not_based : ¬ ∀ (files : Entries String) (root : String) (d : Context),
    2 ≤ d.imports.length →
    ImportChain files root (fun _ target _ => startsWith target "/" = false) d.imports →
      clean (directory root ++ d.urlBase) = directory d.currentUri := by
  intro h
  have hchain := @ImportChain.imported [("lib/_index.scss", "a { b: url(x.png); }")] "main.scss"
    (fun _ target _ => startsWith target "/" = false) ⟨"main.scss", ""⟩ [] "lib"
    ⟨"lib/_index.scss", "a { b: url(x.png); }"⟩ .root (by decide +kernel) (by decide)
  have hsame := h _ _ { Context.isolated with imports := _ } (by simp) hchain
  exact absurd hsame (by decide)

end Scss
