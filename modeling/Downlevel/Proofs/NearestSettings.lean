import Downlevel.Proofs.Fronts
import Downlevel.Proofs.Resolution
import Downlevel.Settings.Toml

/-!
# The nearest settings

Settings for a path from the top are looked for in its folder and in all folders
above that. A folder without a settings file, or with one that cannot be read or is
malformed, is passed over. So the settings are those of the nearest folder whose
file can be used. Empty pieces and dots in the path make no difference, since a
name follows them where a file is looked for.
-/

namespace Downlevel

namespace FileSystem

variable {fs : FileSystem} {name : String}

theorem read_join {q : Path} {folder : Location} (h : q.components = .top :: folder.map .name)
    (hname : IsName name) :
    fs.read (q.join name) = fs.read (Location.path (folder ++ [name])) := by
  obtain ⟨pieces, hpieces⟩ := q.exists_pieces_join name
  have hcomponents : (q.join name).components = .top :: (folder ++ [name]).map .name := by
    rw [Path.components_join hname, h, List.map_append]
    rfl
  rw [read, read, resolve_of_components hcomponents hpieces hname]

end FileSystem

/-! ### The search -/

/-- A limit that would allow no pass at all is not kept. -/
theorem Settings.dropInvalid_eq (s : Settings) :
    s.dropInvalid = { s with maxPasses := s.maxPasses.filter (· ≠ 0) } := by
  unfold dropInvalid
  obtain ⟨maxPasses⟩ := s
  cases maxPasses with
  | none => rfl
  | some n => by_cases hn : n = 0 <;> simp [hn, Option.filter]

theorem Settings.maxPasses_dropInvalid (s : Settings) : s.dropInvalid.maxPasses ≠ some 0 := by
  rw [dropInvalid_eq]
  simp [Option.filter_eq_some_iff]

namespace FileSystem

variable {fs : FileSystem} {decode : String → Option Settings}

/-- What the settings file in the folder at a location says, if the file can be used. -/
def settingsAt? (fs : FileSystem) (decode : String → Option Settings) (folder : Location) :
    Option Settings :=
  match fs.read (Location.path (folder ++ [settingsName])) with
  | .ok text => (decode text).map Settings.dropInvalid
  | .error _ => none

theorem settingsAt?_eq_some_iff {folder : Location} {s : Settings} :
    fs.settingsAt? decode folder = some s ↔
      ∃ text said, fs.read (Location.path (folder ++ [settingsName])) = .ok text ∧
        decode text = some said ∧ said.dropInvalid = s := by
  unfold settingsAt?
  cases fs.read (Location.path (folder ++ [settingsName])) with
  | error f => simp
  | ok text => simp

theorem settingsAt?_eq_none_iff {folder : Location} :
    fs.settingsAt? decode folder = none ↔
      ∀ text, fs.read (Location.path (folder ++ [settingsName])) = .ok text →
        decode text = none := by
  unfold settingsAt?
  cases fs.read (Location.path (folder ++ [settingsName])) with
  | error f => simp
  | ok text => simp

theorem isName_settingsName : IsName settingsName := by decide

theorem settingsIn?_of_read {q : Path} {folder : Location}
    (h : fs.read (q.join settingsName) = fs.read (Location.path (folder ++ [settingsName]))) :
    fs.settingsIn? decode q =
      (fs.settingsAt? decode folder).map fun s => (s, q.join settingsName) := by
  unfold settingsIn? settingsAt?
  dsimp only
  rw [h]
  cases fs.read (Location.path (folder ++ [settingsName])) with
  | error f => rfl
  | ok text =>
    dsimp only
    cases decode text <;> rfl

/-- The search from a path from the top ends at the nearest folder whose settings can be used. If
there is none, it comes to nothing. -/
theorem search_cases {p : Path} {names : List String}
    (h : p.components = .top :: names.map .name) :
    (∃ (folder : Location) (s : Settings) (q : Path),
      folder <+: names ∧ fs.settingsAt? decode folder = some s ∧
      (∀ nearer, nearer <+: names → folder.length < nearer.length →
        fs.settingsAt? decode nearer = none) ∧
      q.components = .top :: folder.map .name ∧
      p.ancestors.findSome? (fs.settingsIn? decode) = some (s, q.join settingsName)) ∨
    ((∀ folder, folder <+: names → fs.settingsAt? decode folder = none) ∧
      p.ancestors.findSome? (fs.settingsIn? decode) = none) := by
  induction names using List.reverseRecOn generalizing p with
  | nil =>
    rw [Path.ancestors_of_none (Path.parent?_of_top h), List.findSome?_singleton,
      settingsIn?_of_read (read_join h isName_settingsName)]
    cases hat : fs.settingsAt? decode [] with
    | none =>
      refine Or.inr ⟨fun folder hfolder => ?_, rfl⟩
      rwa [List.prefix_nil.1 hfolder]
    | some s =>
      refine Or.inl ⟨[], s, p, List.nil_prefix, hat, fun nearer hnearer hlonger => ?_, h, rfl⟩
      rw [List.prefix_nil.1 hnearer] at hlonger
      exact absurd hlonger (Nat.lt_irrefl _)
  | append_singleton names name ih =>
    have hsplit : p.components = (.top :: names.map .name) ++ [.name name] := by
      rw [h, List.map_append]
      rfl
    obtain ⟨q, hq, hcomponents⟩ := Path.exists_parent? hsplit (by simp)
    rw [Path.ancestors_of_parent? hq, List.findSome?_cons,
      settingsIn?_of_read (read_join h isName_settingsName)]
    cases hat : fs.settingsAt? decode (names ++ [name]) with
    | some s =>
      refine Or.inl ⟨_, s, p, List.prefix_refl _, hat, fun nearer hnearer hlonger => ?_, h, rfl⟩
      have := hnearer.length_le
      omega
    | none =>
      -- Nothing comes of the path itself, so all depends on its parent.
      have hself : ∀ folder, folder <+: names ++ [name] → ¬ folder <+: names →
          fs.settingsAt? decode folder = none := by
        intro folder hfolder hlonger
        rcases List.prefix_concat_iff.1 hfolder with rfl | hshorter
        · exact hat
        · exact absurd hshorter hlonger
      rcases ih hcomponents with
        ⟨folder, s, q', hbegins, hs, hnearest, hq', hfound⟩ | ⟨hnone, hfound⟩
      · refine Or.inl ⟨folder, s, q', hbegins.trans (List.prefix_append _ _), hs, ?_, hq', hfound⟩
        intro nearer hnearer hlonger
        by_cases hbelow : nearer <+: names
        · exact hnearest nearer hbelow hlonger
        · exact hself nearer hnearer hbelow
      · refine Or.inr ⟨fun folder hfolder => ?_, hfound⟩
        by_cases hbelow : folder <+: names
        · exact hnone folder hbelow
        · exact hself folder hfolder hbelow

/-- The search starts at the path, or one up if that leads to a file. -/
theorem exists_settingsFolders {p : Path} {front : List Component} {names : List String}
    (h : p.components = front ++ names.map .name)
    (hnil : fs.isFile p = true → names = [] → p.parent? = none) :
    ∃ q : Path, fs.settingsFolders p = q.ancestors ∧
      q.components = front ++ (if fs.isFile p then names.dropLast else names).map .name := by
  unfold settingsFolders
  split_ifs with hfile
  · induction names using List.reverseRecOn with
    | nil =>
      rw [hnil hfile rfl]
      exact ⟨p, rfl, h⟩
    | append_singleton names name _ =>
      rw [List.map_append, List.map_singleton, ← List.append_assoc] at h
      obtain ⟨q, hq, hcomponents⟩ := Path.exists_parent? h (by simp)
      rw [hq, List.dropLast_concat]
      exact ⟨q, rfl, hcomponents⟩
  · exact ⟨p, rfl, h⟩

/-- No settings allow no pass at all. -/
theorem maxPasses_settingsFor (p : Path) : (fs.settingsFor decode p).1.maxPasses ≠ some 0 := by
  unfold settingsFor
  split
  next s file hfound =>
    obtain ⟨folder, _, hfolder⟩ := List.exists_of_findSome?_eq_some hfound
    unfold settingsIn? at hfolder
    dsimp only at hfolder
    split at hfolder
    · obtain ⟨said, _, hsaid⟩ := Option.map_eq_some_iff.1 hfolder
      cases hsaid
      exact said.maxPasses_dropInvalid
    · cases hfolder
  next => simp

/-- For a path that leads from the top through names only, the settings are those of the nearest
folder whose file can be read and is well-formed. The search starts at the path itself, or one up
if it leads to a file, and all nearer files that can be read are malformed. A limit of no passes
is dropped, and where no file can be used, nothing is set. -/
theorem settingsFor_is_nearest {fs : FileSystem} {decode : String → Option Settings} {p : Path}
    {names start : List String} (hp : p.components = .top :: names.map .name)
    (hstart : start = if fs.isFile p then names.dropLast else names) :
    ((∃ (folder : Location) (text : String) (said : Settings) (file : Path), folder <+: start ∧
        fs.read (Location.path (folder ++ [settingsName])) = .ok text ∧
        decode text = some said ∧
        (∀ nearer : Location, nearer <+: start → folder.length < nearer.length →
          ∀ text', fs.read (Location.path (nearer ++ [settingsName])) = .ok text' →
            decode text' = none) ∧
        file.components = .top :: (folder ++ [settingsName]).map .name ∧
        fs.settingsFor decode p =
          ({ said with maxPasses := said.maxPasses.filter (· ≠ 0) }, some file)) ∨
      (∀ folder : Location, folder <+: start →
        ∀ text, fs.read (Location.path (folder ++ [settingsName])) = .ok text →
          decode text = none) ∧
        fs.settingsFor decode p = ({}, none)) ∧
    (fs.settingsFor decode p).1.maxPasses ≠ some 0 := by
  refine ⟨?_, maxPasses_settingsFor p⟩
  subst hstart
  have hsplit : p.components = [.top] ++ names.map .name := hp
  obtain ⟨q, hfolders, hq⟩ := exists_settingsFolders hsplit fun _ hnil =>
    Path.parent?_of_top (by rw [hp, hnil]; rfl)
  simp only [← settingsAt?_eq_none_iff]
  rcases search_cases hq with ⟨folder, s, q', hbegins, hs, hnearest, hq', hfound⟩ | ⟨hnone, hfound⟩
  · obtain ⟨text, said, hread, hsaid, rfl⟩ := settingsAt?_eq_some_iff.1 hs
    refine Or.inl
      ⟨folder, text, said, q'.join settingsName, hbegins, hread, hsaid, hnearest, ?_, ?_⟩
    · rw [Path.components_join isName_settingsName, hq', List.map_append]
      rfl
    · rw [settingsFor, hfolders, hfound, Settings.dropInvalid_eq]
  · refine Or.inr ⟨hnone, ?_⟩
    rw [settingsFor, hfolders, hfound]

/-- Settings at the top, malformed ones in a folder, and none in the folder below it. -/
def nestedSettings : FileSystem where
  top := .folder [
    (settingsName, .file "[cxx-backport]\nmax_passes = 0\nallow_parse_errors = true\n".toUTF8),
    ("a", .folder [(settingsName, .file "[cxx-backport]\nmax_passes = \"many\"\n".toUTF8),
      ("b", .folder [("f.cpp", .file .empty)])])]

theorem settingsFor_is_nearest_nestedSettings :
    nestedSettings.isFile ⟨true, ["a", "", "b", "f.cpp"]⟩ = true ∧
      ∃ file, nestedSettings.settingsFor Settings.ofText? ⟨true, ["a", "", "b", "f.cpp"]⟩ =
        ({ allowErrors := some true }, some file) ∧
        file.components = [.top, .name settingsName] := by
  have hfile : nestedSettings.isFile ⟨true, ["a", "", "b", "f.cpp"]⟩ = true := by decide +kernel
  have htop : nestedSettings.read (Location.path ([] ++ [settingsName])) =
      .ok "[cxx-backport]\nmax_passes = 0\nallow_parse_errors = true\n" := by decide +kernel
  have hsaid : Settings.ofText? "[cxx-backport]\nmax_passes = 0\nallow_parse_errors = true\n" =
      some { maxPasses := some 0, allowErrors := some true } := by decide +kernel
  have hmalformed : (nestedSettings.read (Location.path (["a"] ++ [settingsName]))).toOption.bind
      Settings.ofText? = none := by decide +kernel
  have hmissing : nestedSettings.read (Location.path (["a", "b"] ++ [settingsName])) =
      .error .notFound := by decide +kernel
  have hp : (⟨true, ["a", "", "b", "f.cpp"]⟩ : Path).components =
      .top :: ["a", "b", "f.cpp"].map .name := by decide
  have hstart : ["a", "b"] = if nestedSettings.isFile ⟨true, ["a", "", "b", "f.cpp"]⟩
      then ["a", "b", "f.cpp"].dropLast else ["a", "b", "f.cpp"] := by
    rw [hfile]
    rfl
  refine ⟨hfile, ?_⟩
  obtain ⟨⟨folder, text, said, file, hbegins, hread, hsays, _, hcomponents, hfor⟩ |
    ⟨hnone, _⟩, _⟩ := settingsFor_is_nearest hp hstart
  · have hfolder : folder ∈ [[], ["a"], ["a", "b"]] := (List.mem_inits _ _).2 hbegins
    simp only [List.mem_cons, List.not_mem_nil, or_false] at hfolder
    rcases hfolder with rfl | rfl | rfl
    · cases htop.symm.trans hread
      cases hsaid.symm.trans hsays
      exact ⟨file, hfor, hcomponents⟩
    · rw [hread] at hmalformed
      cases hmalformed.symm.trans hsays
    · cases hmissing.symm.trans hread
  · cases hsaid.symm.trans (hnone [] List.nil_prefix _ htop)

end FileSystem

end Downlevel
