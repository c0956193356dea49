import Downlevel.Proofs.Discovery

/-!
# Forced folders

Forcing takes patterns off the excluded ones, text by text. So forcing the name of a
folder lifts the pattern that is spelled like it, and nothing else: where a star
pattern matches the name as well, the folder stays left out until the star pattern
itself is forced.
-/

namespace Downlevel

/-- The pattern is a star for every name that ends in an extension, and the name ends in it. -/
def StarMatches (name pattern : String) : Prop :=
  ∃ stem ext, pattern = "*." ++ ext ∧ name = stem ++ "." ++ ext

theorem StarMatches.notMem_defaultExcludes {name pattern : String} (h : StarMatches name pattern) :
    pattern ∉ defaultExcludes := by
  have hstar : ∀ p ∈ defaultExcludes, p.toList.head? ≠ some '*' := by decide
  obtain ⟨stem, ext, rfl, _⟩ := h
  intro hmem
  exact hstar _ hmem (by simp)

namespace Search

/-- Folders of this name are not left out: the name is forced or is no excluded pattern, and all
star patterns that match it are forced. -/
def Admits (s : Search) (name : String) : Prop :=
  (name ∈ s.forced ∨ name ∉ s.exclude ++ defaultExcludes) ∧
    ∀ pattern ∈ s.exclude, StarMatches name pattern → pattern ∈ s.forced

variable {s : Search} {name : String}

theorem admits_of_unmatched
    (h : ∀ pattern ∈ s.exclude ++ defaultExcludes, ¬ NameMatches name pattern) : s.Admits name := by
  constructor
  · exact Or.inr fun hmem => h name hmem (Or.inl rfl)
  · intro pattern hpattern hstar
    exact absurd (Or.inr hstar) (h pattern (List.mem_append_left _ hpattern))

theorem not_prunes_iff : ¬ s.Prunes name ↔ s.Admits name := by
  constructor
  · intro h
    constructor
    · by_cases hforced : name ∈ s.forced
      · exact Or.inl hforced
      · exact Or.inr fun hmem => h ⟨name, List.mem_append.1 hmem, hforced, Or.inl rfl⟩
    · intro pattern hpattern hstar
      by_contra hforced
      exact h ⟨pattern, Or.inl hpattern, hforced, Or.inr hstar⟩
  · rintro ⟨hname, hstars⟩ ⟨pattern, hmem, hforced, rfl | hstar⟩
    · rcases hname with hname | hname
      · exact hforced hname
      · exact hname (List.mem_append.2 hmem)
    · -- The default patterns hold no star, so this one was asked for.
      rcases hmem with hmem | hmem
      · exact hforced (hstars pattern hmem hstar)
      · exact StarMatches.notMem_defaultExcludes hstar hmem

end Search

namespace FileSystem

open Entry (WellNamed)

/-- Where a walk shows all that it is to show, a file with a wanted extension is listed if and only
if all folders on the way to it are admitted. It is so if each of them is matched by no pattern, or
is forced by its name and by all star patterns that match it. -/
theorem collect_lists_forced {walk : Walker} {isText : String → Bool} {fs : FileSystem}
    {root : Path} {entries : List (String × Entry)}
    (hfolder : fs.find? root = some (.folder entries)) (hnamed : WellNamed entries)
    (hwalk : walk.Enumerates isText fs root (.folder entries)) (search : Search) {ns : Location}
    {e : Entry} (hne : ns ≠ []) (hat : (Entry.folder entries).at? ns = some e)
    (hkind : e.isFolder = false) (hcarries : (root.joinAll ns).Carries search.extensions) :
    (root.joinAll ns ∈ (fs.collect walk search root).1 ↔
      ∀ name ∈ ns.dropLast, isText name = true → search.Admits name) ∧
    ((∀ name ∈ ns.dropLast,
        (name ∈ search.forced ∧
          ∀ pattern ∈ search.exclude, StarMatches name pattern → pattern ∈ search.forced) ∨
        ∀ pattern ∈ search.exclude ++ defaultExcludes, ¬ NameMatches name pattern) →
      root.joinAll ns ∈ (fs.collect walk search root).1) := by
  have hopen : ∀ name, ¬ search.Shuts isText name ↔ (isText name = true → search.Admits name) :=
    fun name => by rw [Search.Shuts, not_and, Search.not_prunes_iff]
  have hlisted : root.joinAll ns ∈ (fs.collect walk search root).1 ↔
      ∀ name ∈ ns.dropLast, isText name = true → search.Admits name := by
    rw [mem_collect_iff hnamed hwalk hfolder]
    simp only [hopen]
    constructor
    · rintro ⟨_, ⟨hroot, _⟩ | ⟨ns', e', hne', hpath, hat', _, hbetween⟩⟩
      · -- The path of the folder itself is no path of an entry below it.
        have hsame : (root.joinAll ns).components = (root.joinAll []).components :=
          congrArg Path.components hroot
        exact absurd (Path.joinAll_inj (hnamed.isName_of_at? hne hat) (by simp) hsame) hne
      · obtain rfl := Path.joinAll_inj (hnamed.isName_of_at? hne hat)
          (hnamed.isName_of_at? hne' hat') (congrArg Path.components hpath)
        exact hbetween
    · intro hbetween
      exact ⟨hcarries, Or.inr ⟨ns, e, hne, rfl, hat, hkind, hbetween⟩⟩
  refine ⟨hlisted, fun h => hlisted.2 fun name hname _ => ?_⟩
  rcases h name hname with ⟨hforced, hstars⟩ | hunmatched
  · exact ⟨Or.inl hforced, hstars⟩
  · exact Search.admits_of_unmatched hunmatched

/-- A folder that is left out by default holds one that a star pattern may match. -/
def generatedEntries : List (String × Entry) :=
  [("out", .folder [("proto.gen", .folder [("a.cpp", .file .empty)])])]

def generated : FileSystem where
  top := .folder generatedEntries

theorem wellNamed_generated : WellNamed generatedEntries :=
  .cons (by decide) (by decide) (.cons (by decide) (by decide)
    (.cons (by decide) (by decide) .nil .nil) .nil) .nil

theorem unruled_generated : generated.Unruled [] := by
  refine unruled_of_lacks (fun name hname => lacks_of_notMem_names ?_) []
  revert name
  decide

theorem carries_generated :
    (Path.joinAll ⟨false, ["."]⟩ ["out", "proto.gen", "a.cpp"]).Carries ["cpp"] :=
  ⟨"a", "cpp", by decide +kernel, by decide, by decide, "cpp", by simp, rfl⟩

theorem find?_generated : generated.find? ⟨false, ["."]⟩ = some (.folder generatedEntries) := by
  have hroot : generated.resolve ⟨false, ["."]⟩ = .ok [] := by decide +kernel
  rw [find?, hroot]
  rfl

theorem enumerates_generated : (ignoreWalk none).Enumerates (fun _ => true) generated
    ⟨false, ["."]⟩ (.folder generatedEntries) :=
  ignoreWalk_enumerates none (by decide) (by decide +kernel) rfl wellNamed_generated
    unruled_generated

theorem collect_lists_forced_generated :
    (Entry.folder generatedEntries).at? ["out", "proto.gen", "a.cpp"] = some (.file .empty) ∧
      ⟨false, [".", "out", "proto.gen", "a.cpp"]⟩ ∈
        (generated.collect (ignoreWalk none) ⟨["*.gen"], ["out", "*.gen"], ["cpp"]⟩
          ⟨false, ["."]⟩).1 := by
  have hat : (Entry.folder generatedEntries).at? ["out", "proto.gen", "a.cpp"] =
      some (.file .empty) := rfl
  obtain ⟨hlisted, _⟩ := collect_lists_forced find?_generated wellNamed_generated
    enumerates_generated ⟨["*.gen"], ["out", "*.gen"], ["cpp"]⟩ (by decide) hat rfl
    carries_generated
  refine ⟨hat, hlisted.2 fun name hname _ => ?_⟩
  have hpatterns : ∀ pattern ∈ ["*.gen"], StarMatches name pattern →
      pattern ∈ ["out", "*.gen"] := by
    intro pattern hpattern _
    simp [List.mem_singleton.1 hpattern]
  have hbetween : name = "out" ∨ name = "proto.gen" := by simpa using hname
  rcases hbetween with rfl | rfl
  · exact ⟨Or.inl (by simp), hpatterns⟩
  · exact ⟨Or.inr (by decide), hpatterns⟩

/-- Forcing folders by their names does not lift a star pattern that matches one of them. -/
theorem collect_drops_forced :
    generated.find? ⟨false, ["."]⟩ = some (.folder generatedEntries) ∧
      WellNamed generatedEntries ∧
      (ignoreWalk none).Enumerates (fun _ => true) generated ⟨false, ["."]⟩
        (.folder generatedEntries) ∧
      (Entry.folder generatedEntries).at? ["out", "proto.gen", "a.cpp"] = some (.file .empty) ∧
      (Path.joinAll ⟨false, ["."]⟩ ["out", "proto.gen", "a.cpp"]).Carries ["cpp"] ∧
      (∀ name ∈ ["out", "proto.gen", "a.cpp"].dropLast, name ∈ ["out", "proto.gen"]) ∧
      (generated.collect (ignoreWalk none) ⟨["*.gen"], ["out", "proto.gen"], ["cpp"]⟩
        ⟨false, ["."]⟩).1 = [] :=
  ⟨find?_generated, wellNamed_generated, enumerates_generated, rfl, carries_generated, by decide,
    by decide +kernel⟩

end FileSystem

end Downlevel
