import Downlevel.Proofs.Enumeration

/-!
# What discovery finds

Discovery tells a walk to keep out of folders by their names and of nothing else. So
of all that a walk can show, an entry is shown if and only if no folder on the way to
it is left out. Paths that lead to different entries have different components, so
that sorting puts the files in a strict order.
-/

namespace Downlevel

/-! ### Patterns -/

/-- The name is the pattern, or the pattern is a star for every name that ends in an extension and
the name ends in it. -/
def NameMatches (name pattern : String) : Prop :=
  name = pattern ∨ ∃ stem ext, pattern = "*." ++ ext ∧ name = stem ++ "." ++ ext

theorem matchesName_iff {name pattern : String} :
    matchesName name pattern = true ↔ NameMatches name pattern := by
  unfold matchesName NameMatches
  split
  next suffix hpattern =>
    rw [List.isSuffixOf_iff_suffix]
    constructor
    · rintro ⟨stem, hname⟩
      refine Or.inr ⟨String.ofList stem, String.ofList suffix, ?_, ?_⟩
      · apply String.toList_inj.1
        simp [hpattern]
      · apply String.toList_inj.1
        simp [← hname]
    · rintro (rfl | ⟨stem, ext, rfl, rfl⟩)
      · exact ⟨['*'], by simp [hpattern]⟩
      · have hsuffix : ext.toList = suffix := by simpa using hpattern
        exact ⟨stem.toList, by simp [hsuffix]⟩
  next hpattern =>
    rw [beq_iff_eq]
    constructor
    · exact Or.inl
    · rintro (heq | ⟨stem, ext, rfl, _⟩)
      · exact heq
      · exact absurd (by simp) (hpattern ext.toList)

/-- Folders of this name are left out: a pattern that is not taken off matches it. -/
def Search.Prunes (s : Search) (name : String) : Prop :=
  ∃ pattern, (pattern ∈ s.exclude ∨ pattern ∈ defaultExcludes) ∧ pattern ∉ s.forced ∧
    NameMatches name pattern

theorem Search.isExcluded_patterns_eq_false {s : Search} {name : String} :
    isExcluded name s.patterns = false ↔ ¬ s.Prunes name := by
  rw [← Bool.not_eq_true, not_iff_not]
  unfold isExcluded patterns Prunes
  simp only [List.any_eq_true, List.mem_filter, List.mem_append, matchesName_iff, Bool.not_eq_true',
    List.contains_eq_mem, decide_eq_false_iff_not, and_assoc]

/-- Folders of this name are left out. A name that is not text matches no pattern. -/
def Search.Shuts (s : Search) (isText : String → Bool) (name : String) : Prop :=
  isText name = true ∧ s.Prunes name

/-! ### Folders that are left out -/

theorem Path.isSame_joinAll_eq_false {root : Path} {ns : Location} (hne : ns ≠ [])
    (hnames : ∀ name ∈ ns, IsName name) : (root.joinAll ns).isSame root = false := by
  rw [isSame, beq_eq_false_iff_ne]
  intro hsame
  have hnil : (root.joinAll ns).components = (root.joinAll []).components := hsame
  exact hne (joinAll_inj hnames (by simp) hnil)

theorem Entry.WellNamed.isName_of_at? {entries : List (String × Entry)} {ns : Location} {e : Entry}
    (h : WellNamed entries) (hne : ns ≠ []) (hat : (folder entries).at? ns = some e) :
    ∀ name ∈ ns, IsName name := by
  cases ns with
  | nil => exact absurd rfl hne
  | cons n ns => exact (h.of_at? hat).1

theorem Entry.isFolder_of_at? {e e' : Entry} {name : String} {ns : Location}
    (h : e.at? (name :: ns) = some e') : e.isFolder = true := by
  obtain ⟨entries, _, rfl, _⟩ := exists_lookup_of_at? h
  rfl

namespace Search

variable {search : Search} {isText : String → Bool} {root : Path} {folder e : Entry}
  {ns : Location}

/-- Below the root, what is no folder is kept, and so are folders that are not left out. -/
theorem keeps_below_iff (hne : ns ≠ []) (hnames : ∀ name ∈ ns, IsName name) :
    search.keeps root (.below isText root ns e) = true ↔
      (e.isFolder = true → ∀ name, ns.getLast? = some name → ¬ search.Shuts isText name) := by
  have hroot : (root.joinAll ns).isSame root = false := Path.isSame_joinAll_eq_false hne hnames
  unfold keeps Visit.below Shuts
  simp only [hroot, Bool.false_eq_true, if_false]
  cases e.isFolder with
  | false => simp
  | true =>
    cases ns.getLast? with
    | none => simp
    | some name =>
      simp only [Bool.not_true, Bool.false_eq_true, if_false, forall_const, Option.some.injEq,
        forall_eq', Option.filter_some]
      cases isText name with
      | false => simp
      | true => simpa using isExcluded_patterns_eq_false

/-- An entry on the way is a folder, and the one that the way ends at may be. -/
theorem isFolder_of_append {front behind : Location} {e₁ : Entry}
    (hat : folder.at? front = some e₁) (hat' : folder.at? (front ++ behind) = some e)
    (h : behind = [] → e.isFolder = true) : e₁.isFolder = true := by
  rw [Entry.at?_append hat] at hat'
  cases behind with
  | nil =>
    rw [Entry.at?_nil] at hat'
    rw [Option.some.inj hat']
    exact h rfl
  | cons n behind => exact Entry.isFolder_of_at? hat'

/-- The way to an entry is kept if no folder on it is left out, and the entry neither. -/
theorem keptTo_iff (hnames : ∀ name ∈ ns, IsName name) (hat : folder.at? ns = some e) :
    folder.KeptTo (fun front e => search.keeps root (.below isText root front e)) ns ↔
      (∀ name ∈ ns.dropLast, ¬ search.Shuts isText name) ∧
        (e.isFolder = true → ∀ name ∈ ns, ¬ search.Shuts isText name) := by
  constructor
  · intro h
    have hopen : ∀ front name behind, ns = front ++ [name] ++ behind →
        (behind = [] → e.isFolder = true) → ¬ search.Shuts isText name := by
      rintro front name behind rfl hlast
      obtain ⟨e₁, hat₁, _⟩ := Entry.exists_at?_of_append hat
      have hfront : ∀ n ∈ front ++ [name], IsName n :=
        fun n hn => hnames n (List.mem_append_left behind hn)
      have hkeeps := h _ e₁ (by simp) (List.prefix_append _ behind) hat₁
      exact (keeps_below_iff (by simp) hfront).1 hkeeps (isFolder_of_append hat₁ hat hlast) name
        List.getLast?_concat
    constructor
    · intro name hname
      have hne : ns ≠ [] := by
        rintro rfl
        cases hname
      obtain ⟨front, behind, hsplit⟩ := List.append_of_mem hname
      refine hopen front name (behind ++ [ns.getLast hne]) ?_ (by simp)
      rw [← List.append_assoc, List.append_assoc front, List.singleton_append, ← hsplit,
        List.dropLast_append_getLast]
    · intro hfolder name hname
      obtain ⟨front, behind, rfl⟩ := List.append_of_mem hname
      exact hopen front name behind (by simp) fun _ => hfolder
  · rintro ⟨hbetween, hlast⟩ front e₁ hne ⟨behind, rfl⟩ hat₁
    rw [keeps_below_iff hne fun n hn => hnames n (List.mem_append_left behind hn)]
    intro hfolder name hname
    have hmem : name ∈ front := List.mem_of_getLast? hname
    cases behind with
    | nil =>
      rw [List.append_nil] at hat hlast
      rw [Option.some.inj (hat₁.symm.trans hat)] at hfolder
      exact hlast hfolder name hmem
    | cons n behind =>
      apply hbetween
      rw [List.dropLast_append_of_ne_nil (by simp)]
      exact List.mem_append_left _ hmem

end Search

/-! ### Visits -/

section Visits

variable {walk : Walker} {isText : String → Bool} {fs : FileSystem} {root : Path}
  {entries : List (String × Entry)} {search : Search} {v w : Visit}

def Walker.visits (walk : Walker) (fs : FileSystem) (search : Search) (root : Path) : List Visit :=
  (walk fs root (search.keeps root)).filterMap Except.toOption

theorem mem_visits : v ∈ walk.visits fs search root ↔ .ok v ∈ walk fs root (search.keeps root) := by
  rw [Walker.visits, List.mem_filterMap]
  constructor
  · rintro ⟨shown, hmem, hv⟩
    cases shown with
    | error f => cases hv
    | ok v' =>
      cases hv
      exact hmem
  · intro h
    exact ⟨.ok v, h, rfl⟩

def Search.sources (search : Search) (visits : List Visit) : List Path :=
  (visits.filter fun v => !v.isFolder && v.path.hasExtension search.extensions).map Visit.path

def foldersBelow (root : Path) (visits : List Visit) : List Path :=
  (visits.filter fun v => v.isFolder && !v.path.isSame root).map Visit.path

theorem Found.foldl_add (search : Search) (root : Path) (shown : List (Except SystemFault Visit))
    (found : Found) :
    shown.foldl (Found.add search root) found =
      ⟨found.files ++ search.sources (shown.filterMap Except.toOption),
        found.folders + (foldersBelow root (shown.filterMap Except.toOption)).length⟩ := by
  induction shown generalizing found with
  | nil => simp [Search.sources, foldersBelow]
  | cons result shown ih =>
    rw [List.foldl_cons, ih]
    cases result with
    | error f => rfl
    | ok v =>
      have hcons : (.ok v :: shown).filterMap Except.toOption =
          v :: shown.filterMap Except.toOption := rfl
      rw [hcons, Found.add]
      cases hfolder : v.isFolder with
      | true =>
        cases hsame : v.path.isSame root <;>
          simp [Search.sources, foldersBelow, hfolder, hsame, Nat.add_assoc, Nat.add_comm 1]
      | false =>
        cases hextension : v.path.hasExtension search.extensions <;>
          simp [Search.sources, foldersBelow, hfolder, hextension]

theorem FileSystem.collect_eq (walk : Walker) (search : Search) (root : Path) :
    fs.collect walk search root =
      ((search.sources (walk.visits fs search root)).mergeSort Path.le,
        (foldersBelow root (walk.visits fs search root)).length) := by
  rw [collect]
  simp [Found.foldl_add, Walker.visits]

variable (hnamed : Entry.WellNamed entries)
  (hwalk : walk.Enumerates isText fs root (.folder entries))

include hnamed hwalk

/-- Discovery is shown the root, and the entries to which no folder is left out. -/
theorem mem_visits_iff :
    v ∈ walk.visits fs search root ↔ v = fs.rootVisit root ∨
      ∃ ns e, ns ≠ [] ∧ (∀ name ∈ ns, IsName name) ∧ (Entry.folder entries).at? ns = some e ∧
        v = .below isText root ns e ∧ (∀ name ∈ ns.dropLast, ¬ search.Shuts isText name) ∧
        (e.isFolder = true → ∀ name ∈ ns, ¬ search.Shuts isText name) := by
  have hroot : search.keeps root (fs.rootVisit root) = true := by
    simp [Search.keeps, FileSystem.rootVisit, Path.isSame]
  rw [mem_visits, hwalk.mem_iff _ v hroot]
  refine or_congr_right ⟨?_, ?_⟩
  · rintro ⟨ns, e, hne, hat, rfl, hkept⟩
    have hnames := hnamed.isName_of_at? hne hat
    exact ⟨ns, e, hne, hnames, hat, rfl, (Search.keptTo_iff hnames hat).1 hkept⟩
  · rintro ⟨ns, e, hne, hnames, hat, rfl, hopen⟩
    exact ⟨ns, e, hne, hat, rfl, (Search.keptTo_iff hnames hat).2 hopen⟩

/-- Visits differ in the components of their paths. -/
theorem nodup_components_visits :
    ((walk.visits fs search root).map fun v => v.path.components).Nodup := by
  have hvisit : ∀ v ∈ walk.visits fs search root, ∃ ns, (∀ name ∈ ns, IsName name) ∧
      v.path = root.joinAll ns ∧
        (ns = [] ∧ v = fs.rootVisit root ∨
          ∃ e, (Entry.folder entries).at? ns = some e ∧ ns ≠ [] ∧ v = .below isText root ns e) := by
    intro v hv
    rcases (mem_visits_iff hnamed hwalk).1 hv with rfl | ⟨ns, e, hne, hnames, hat, rfl, _⟩
    · exact ⟨[], by simp, rfl, Or.inl ⟨rfl, rfl⟩⟩
    · exact ⟨ns, hnames, rfl, Or.inr ⟨e, hat, hne, rfl⟩⟩
  refine (hwalk.nodup _).map_on fun v hv w hw hsame => ?_
  obtain ⟨ns, hnames, hpath, hns⟩ := hvisit v hv
  obtain ⟨ns', hnames', hpath', hns'⟩ := hvisit w hw
  rw [hpath, hpath'] at hsame
  obtain rfl := Path.joinAll_inj hnames hnames' hsame
  rcases hns with ⟨rfl, rfl⟩ | ⟨e, hat, hne, rfl⟩
  · rcases hns' with ⟨_, rfl⟩ | ⟨_, _, hne, _⟩
    · rfl
    · exact absurd rfl hne
  · rcases hns' with ⟨hnil, _⟩ | ⟨e', hat', _, rfl⟩
    · exact absurd hnil hne
    · rw [Option.some.inj (hat.symm.trans hat')]

end Visits

namespace FileSystem

open Entry (WellNamed)

section Collect

variable {walk : Walker} {isText : String → Bool} {fs : FileSystem} {root : Path}
  {entries : List (String × Entry)} (hnamed : WellNamed entries)
  (hwalk : walk.Enumerates isText fs root (.folder entries))

include hnamed hwalk

theorem mem_collect_iff (hfolder : fs.find? root = some (.folder entries)) {search : Search}
    {p : Path} :
    p ∈ (fs.collect walk search root).1 ↔ p.Carries search.extensions ∧
      ((p = root ∧ fs.isLink root = true) ∨
        ∃ ns e, ns ≠ [] ∧ p = root.joinAll ns ∧ (Entry.folder entries).at? ns = some e ∧
          e.isFolder = false ∧ ∀ name ∈ ns.dropLast, ¬ search.Shuts isText name) := by
  have hroot : (fs.rootVisit root).isFolder = !fs.isLink root := by
    simp [rootVisit, isFolder, hfolder]
  rw [collect_eq, List.mem_mergeSort, Search.sources, List.mem_map]
  simp only [List.mem_filter, mem_visits_iff hnamed hwalk, Bool.and_eq_true, Bool.not_eq_true',
    Path.hasExtension_iff]
  constructor
  · rintro ⟨v, ⟨rfl | ⟨ns, e, hne, _, hat, rfl, hbetween, _⟩, hkind, hcarries⟩, rfl⟩
    · rw [hroot, Bool.not_eq_false'] at hkind
      exact ⟨hcarries, Or.inl ⟨rfl, hkind⟩⟩
    · exact ⟨hcarries, Or.inr ⟨ns, e, hne, rfl, hat, hkind, hbetween⟩⟩
  · rintro ⟨hcarries, ⟨rfl, hlink⟩ | ⟨ns, e, hne, rfl, hat, hkind, hbetween⟩⟩
    · exact ⟨_, ⟨Or.inl rfl, by rw [hroot, hlink]; rfl, hcarries⟩, rfl⟩
    · have hnames := hnamed.isName_of_at? hne hat
      exact ⟨.below isText root ns e, ⟨Or.inr ⟨ns, e, hne, hnames, hat, rfl, hbetween,
        by simp [hkind]⟩, hkind, hcarries⟩, rfl⟩

theorem mem_foldersBelow_iff {search : Search} {p : Path} :
    p ∈ foldersBelow root (walk.visits fs search root) ↔
      ∃ ns es, ns ≠ [] ∧ p = root.joinAll ns ∧
        (Entry.folder entries).at? ns = some (.folder es) ∧
        ∀ name ∈ ns, ¬ search.Shuts isText name := by
  rw [foldersBelow, List.mem_map]
  simp only [List.mem_filter, mem_visits_iff hnamed hwalk, Bool.and_eq_true, Bool.not_eq_true']
  constructor
  · rintro ⟨v, ⟨rfl | ⟨ns, e, hne, _, hat, rfl, _, hopen⟩, hkind, hsame⟩, rfl⟩
    · simp [rootVisit, Path.isSame] at hsame
    · cases e with
      | folder es => exact ⟨ns, es, hne, rfl, hat, hopen rfl⟩
      | file content => cases hkind
      | link target => cases hkind
  · rintro ⟨ns, es, hne, rfl, hat, hopen⟩
    have hnames := hnamed.isName_of_at? hne hat
    refine ⟨.below isText root ns (.folder es), ⟨Or.inr ⟨ns, _, hne, hnames, hat, rfl,
      fun name hname => hopen name (List.dropLast_subset ns hname), fun _ => hopen⟩, rfl, ?_⟩, rfl⟩
    exact Path.isSame_joinAll_eq_false hne hnames

end Collect

/-- Discovery is exact where a walk shows all that it is to show. It lists the entries below a
folder that are no folders themselves, have one of the extensions and are not shut off by a folder
that is left out, each once and in the order of paths. If the path of the folder is a link, that is
listed as well. The folders counted are those that are not left out or shut off. -/
theorem collect_lists_open_files {walk : Walker} {isText : String → Bool} {fs : FileSystem}
    {root : Path} {entries : List (String × Entry)}
    (hfolder : fs.find? root = some (.folder entries)) (hnamed : WellNamed entries)
    (hwalk : walk.Enumerates isText fs root (.folder entries)) (search : Search) :
    (fs.collect walk search root).1.Pairwise Path.Before ∧
      (fs.collect walk search root).1.Nodup ∧
      (∀ p, p ∈ (fs.collect walk search root).1 ↔ p.Carries search.extensions ∧
        ((p = root ∧ fs.isLink root = true) ∨
          ∃ ns e, ns ≠ [] ∧ p = root.joinAll ns ∧ (Entry.folder entries).at? ns = some e ∧
            e.isFolder = false ∧ ∀ name ∈ ns.dropLast, ¬ search.Shuts isText name)) ∧
      ∃ folders : List Path, folders.Nodup ∧
        (∀ p, p ∈ folders ↔ ∃ ns es, ns ≠ [] ∧ p = root.joinAll ns ∧
          (Entry.folder entries).at? ns = some (.folder es) ∧
          ∀ name ∈ ns, ¬ search.Shuts isText name) ∧
        (fs.collect walk search root).2 = folders.length := by
  have hvisits : ((walk.visits fs search root).map fun v => v.path.components).Nodup :=
    nodup_components_visits hnamed hwalk
  have hnodup : ∀ keep : Visit → Bool,
      (((walk.visits fs search root).filter keep).map Visit.path |>.map Path.components).Nodup := by
    intro keep
    rw [List.map_map]
    exact hvisits.sublist (List.filter_sublist.map _)
  have hsorted : (fs.collect walk search root).1.Pairwise Path.Before := by
    rw [collect_eq]
    exact Path.pairwise_before_mergeSort (hnodup _)
  refine ⟨hsorted, hsorted.imp Path.Before.ne, fun p => mem_collect_iff hnamed hwalk hfolder,
    foldersBelow root (walk.visits fs search root), (hnodup _).of_map, fun p =>
      mem_foldersBelow_iff hnamed hwalk, ?_⟩
  rw [collect_eq]

/-- What a folder of a project holds: a file, a folder that is left out by default, and another
one that may be forced and holds a link. -/
def vendoredEntries : List (String × Entry) :=
  [("A.CPP", .file .empty), ("out", .folder [("b.cpp", .file .empty)]),
    ("vendor", .folder [("l.h", .link ⟨true, []⟩)])]

/-- The folder itself bears a name that is left out below others. -/
def vendored : FileSystem where
  top := .folder [("build", .folder vendoredEntries)]

theorem collect_lists_open_files_vendored :
    (ignoreWalk none).Enumerates (fun _ => true) vendored ⟨false, ["build"]⟩
        (.folder vendoredEntries) ∧
      ∃ found, vendored.collect (ignoreWalk none) ⟨[], ["vendor"], ["cpp", "h"]⟩
          ⟨false, ["build"]⟩ = found ∧
        found.1.Pairwise Path.Before ∧ ⟨false, ["build", "A.CPP"]⟩ ∈ found.1 ∧
        ⟨false, ["build", "vendor", "l.h"]⟩ ∈ found.1 ∧
        ∃ folders : List Path, ⟨false, ["build", "vendor"]⟩ ∈ folders ∧
          ⟨false, ["build", "out"]⟩ ∉ folders ∧ found.2 = folders.length := by
  have hnamed : WellNamed vendoredEntries :=
    .cons (by decide) (by decide) .nil <|
      .cons (by decide) (by decide) (.cons (by decide) (by decide) .nil .nil) <|
        .cons (by decide) (by decide) (.cons (by decide) (by decide) .nil .nil) .nil
  have hrules : vendored.Unruled ["build"] := by
    refine unruled_of_lacks (fun name hname => lacks_of_notMem_names ?_) _
    revert name
    decide
  have hroot : vendored.resolve ⟨false, ["build"]⟩ = .ok ["build"] := by decide +kernel
  have hfolder : vendored.find? ⟨false, ["build"]⟩ = some (.folder vendoredEntries) := by
    rw [find?, hroot]
    rfl
  have hwalk : (ignoreWalk none).Enumerates (fun _ => true) vendored ⟨false, ["build"]⟩
      (.folder vendoredEntries) :=
    ignoreWalk_enumerates none (by decide) hroot rfl hnamed hrules
  have hvendor : ¬ Search.Shuts ⟨[], ["vendor"], ["cpp", "h"]⟩ (fun _ => true) "vendor" := by
    rintro ⟨_, hprunes⟩
    refine Search.isExcluded_patterns_eq_false.1 ?_ hprunes
    decide +kernel
  refine ⟨hwalk, _, rfl, ?_⟩
  obtain ⟨hsorted, _, hlisted, folders, _, hfolders, hcount⟩ :=
    collect_lists_open_files hfolder hnamed hwalk ⟨[], ["vendor"], ["cpp", "h"]⟩
  refine ⟨hsorted, (hlisted _).2 ⟨?_, Or.inr ⟨["A.CPP"], .file .empty, ?_⟩⟩,
    (hlisted _).2 ⟨?_, Or.inr ⟨["vendor", "l.h"], .link ⟨true, []⟩, ?_⟩⟩,
    folders, (hfolders _).2 ⟨["vendor"], [("l.h", .link ⟨true, []⟩)], ?_⟩, ?_, hcount⟩
  · exact ⟨"A", "CPP", by decide +kernel, by decide, by decide, "cpp", by simp,
      String.toList_inj.1 (by simp [lowercase])⟩
  · exact ⟨by simp, by decide +kernel, rfl, rfl, by simp⟩
  · exact ⟨"l", "h", by decide +kernel, by decide, by decide, "h", by simp, rfl⟩
  · exact ⟨by simp, by decide +kernel, rfl, rfl, by simpa using hvendor⟩
  · exact ⟨by simp, by decide +kernel, rfl, by simpa using hvendor⟩
  · rw [hfolders]
    rintro ⟨ns, es, hne, hpath, hat, hopen⟩
    have hout : (Path.joinAll ⟨false, ["build"]⟩ ["out"]).components =
        (Path.joinAll ⟨false, ["build"]⟩ ns).components := congrArg Path.components hpath
    obtain rfl := Path.joinAll_inj (by decide) (hnamed.isName_of_at? hne hat) hout
    exact hopen "out" (by simp) ⟨rfl, "out", by decide, by decide, Or.inl rfl⟩

/-- A link to an empty folder, and a folder called by a lone dash. -/
def oddRoots : FileSystem where
  top := .folder [("d", .folder []), ("l.cpp", .link ⟨false, ["d"]⟩),
    ("-", .folder [("a.cpp", .file .empty)])]

/-- A link to a folder is listed though it does not lie below itself, and from a lone dash nothing
is found. -/
theorem collect_oddRoots :
    (oddRoots.find? ⟨false, ["l.cpp"]⟩ = some (.folder []) ∧
      oddRoots.collect (ignoreWalk none) ⟨[], [], ["cpp"]⟩ ⟨false, ["l.cpp"]⟩ =
        ([⟨false, ["l.cpp"]⟩], 0)) ∧
    oddRoots.find? ⟨false, ["-"]⟩ = some (.folder [("a.cpp", .file .empty)]) ∧
      oddRoots.collect (ignoreWalk none) ⟨[], [], ["cpp"]⟩ ⟨false, ["-"]⟩ = ([], 0) := by
  have hlink : oddRoots.resolve ⟨false, ["l.cpp"]⟩ = .ok ["d"] := by decide +kernel
  have hdash : oddRoots.resolve ⟨false, ["-"]⟩ = .ok ["-"] := by decide +kernel
  refine ⟨⟨?_, by decide +kernel⟩, ?_, by decide +kernel⟩
  · rw [find?, hlink]
    rfl
  · rw [find?, hdash]
    rfl

end FileSystem

end Downlevel
