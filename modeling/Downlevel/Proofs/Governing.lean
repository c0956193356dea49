import Downlevel.Command
import Downlevel.Ignore.Scope
import Downlevel.Proofs.Files

/-!
# Files that govern a run

Which files a run is about, and how they are treated, is told by its arguments,
by the names in the file system, and by the contents of a few files: settings,
ignore rules, and what leads to the rules of a worktree. If none of these few is
written, a later run goes by the same settings and finds the same files. That a
walk reads no others is what has to be known of it.
-/

namespace Downlevel

def worktree? (line : String) : Option Path :=
  match line.toList with
  | 'g' :: 'i' :: 't' :: 'd' :: 'i' :: 'r' :: ':' :: ' ' :: rest =>
    some (Path.ofText (String.ofList rest))
  | _ => none

namespace Entry

theorem mem_filesIn {entries : List (String × Entry)} {name : String} {e : Entry}
    {w : Location × ByteArray} {l : Location} (hmem : (name, e) ∈ entries)
    (hw : w ∈ e.files (l ++ [name])) : w ∈ filesIn l entries := by
  induction entries with
  | nil => cases hmem
  | cons entry entries ih =>
    rw [filesIn, List.mem_append]
    rcases List.mem_cons.1 hmem with rfl | hmem
    · exact Or.inl hw
    · exact Or.inr (ih hmem)

theorem mem_files_of_at? {e : Entry} {rest : Location} {content : ByteArray}
    (h : e.at? rest = some (.file content)) (l : Location) : (l ++ rest, content) ∈ e.files l := by
  induction rest generalizing e l with
  | nil =>
    cases h
    simp [files]
  | cons name rest ih =>
    obtain ⟨entries, e₁, rfl, hlookup, hbelow⟩ := exists_lookup_of_at? h
    obtain ⟨front, behind, rfl, _⟩ := List.lookup_eq_some_iff.1 hlookup
    rw [files, List.append_cons l name rest]
    exact mem_filesIn (List.mem_append_right front List.mem_cons_self) (ih hbelow (l ++ [name]))

end Entry

namespace FileSystem

variable {fs fs' : FileSystem} {own : FileSystem → Location → Prop}

/-- The exclude file shared by all worktrees, given the first line of a worktree's `commondir`. -/
def sharedExclude (fs : FileSystem) (worktree : Path) (line : String) :
    Location × List String :=
  let common := Path.ofText line
  if line.startsWith "." then
    (fs.startOf worktree, worktree.pieces ++ common.pieces ++ ["info", "exclude"])
  else (fs.startOf common, common.pieces ++ ["info", "exclude"])

def worktreeFiles (fs : FileSystem) (l : Location) : List (Location × List String) :=
  match (fs.firstLine? l [".git"]).bind worktree? with
  | none => []
  | some worktree =>
    let start := fs.startOf worktree
    let pieces := worktree.pieces ++ ["commondir"]
    (start, pieces) :: ((fs.firstLine? start pieces).map (fs.sharedExclude worktree)).toList

/-- The files from which the ignore rules for the folder at `l` are read. Each is given by the
pieces that lead to it from a location. -/
def ruleFiles (fs : FileSystem) (l : Location) : List (Location × List String) :=
  [(l, [".ignore"]), (l, [".gitignore"]), (l, [".git"]), (l, [".git", "info", "exclude"])] ++
    fs.worktreeFiles l

/-- Ignore rules are read from the file at `c`, or what leads to them. It may be so under its own
name or through a link. -/
def HoldsRules (fs : FileSystem) (c : Location) : Prop :=
  ∃ l, ∃ f ∈ fs.ruleFiles l, fs.follow linkLimit f.1 f.2 = .ok c

/-- The file at `c` is the settings file of a folder, or one that ignore rules are read from, or
one of the user's own, which are told by `own`. -/
def Governs (own : FileSystem → Location → Prop) (fs : FileSystem) (c : Location) : Prop :=
  (∃ folder : Path, fs.resolve (folder.join settingsName) = .ok c) ∨ fs.HoldsRules c ∨ own fs c

/-! ### Names -/

theorem hollow_resolve (p : Path) : fs.hollow.resolve p = fs.resolve p := by
  rw [resolve, resolve, follow_hollow]
  rfl

theorem hollow_find? (p : Path) : fs.hollow.find? p = (fs.find? p).map Entry.hollow := by
  rw [find?, find?, hollow_resolve]
  cases fs.resolve p with
  | ok l => exact at?_hollow l
  | error f => rfl

theorem hollow_exists? (p : Path) : fs.hollow.exists? p = fs.exists? p := by
  rw [exists?, exists?, hollow_find?, Option.isSome_map]

theorem hollow_isFile (p : Path) : fs.hollow.isFile p = fs.isFile p := by
  rw [isFile, isFile, hollow_find?]
  cases fs.find? p with
  | none => rfl
  | some e => cases e <;> rfl

theorem hollow_isFolder (p : Path) : fs.hollow.isFolder p = fs.isFolder p := by
  rw [isFolder, isFolder, hollow_find?]
  cases fs.find? p with
  | none => rfl
  | some e => cases e <;> rfl

/-! ### Contents -/

def fileAt? (fs : FileSystem) (l : Location) : Option ByteArray :=
  match fs.at? l with
  | some (.file content) => some content
  | _ => none

theorem read_of_resolve {p : Path} {l : Location} (h : fs.resolve p = .ok l) :
    fs.read p = (fs.fileAt? l).elim (.error .isFolder) fun content =>
      (String.fromUTF8? content).elim (.error .notText) .ok := by
  rw [read, h, fileAt?]
  dsimp only
  cases fs.at? l with
  | none => rfl
  | some e =>
    cases e with
    | folder entries => rfl
    | link target => rfl
    | file content =>
      simp only [Option.elim_some]
      cases String.fromUTF8? content <;> rfl

end FileSystem

/-- A walk reads the contents of no files but those with ignore rules and the user's own. -/
def Walker.ReadsRules (walk : Walker) (own : FileSystem → Location → Prop) : Prop :=
  ∀ fs fs' : FileSystem, fs'.hollow = fs.hollow →
    (∀ c, fs.HoldsRules c ∨ own fs c → fs'.fileAt? c = fs.fileAt? c) → walk fs' = walk fs

namespace FileSystem

variable {fs fs' : FileSystem} {own : FileSystem → Location → Prop}

/-- Only contents of files that do not govern differ. -/
structure Keeps (own : FileSystem → Location → Prop) (fs fs' : FileSystem) : Prop where
  hollow : fs'.hollow = fs.hollow
  content : ∀ c, fs.Governs own c → fs'.fileAt? c = fs.fileAt? c

theorem mem_changedSince {c : Location} {before after : ByteArray}
    (hbefore : fs.at? c = some (.file before)) (hafter : fs'.at? c = some (.file after))
    (hne : after ≠ before) : (c, after) ∈ fs'.changedSince fs := by
  rw [changedSince, List.mem_filter]
  refine ⟨Entry.mem_files_of_at? hafter [], ?_⟩
  simp only [hbefore]
  have hbeq : (after == before) = (after.data == before.data) := rfl
  rw [bne, hbeq, beq_eq_false_iff_ne.2 fun hdata => hne (ByteArray.ext hdata)]
  rfl

theorem keeps_of_changedSince (hhollow : fs'.hollow = fs.hollow)
    (h : ∀ w ∈ fs'.changedSince fs, ¬ fs.Governs own w.1) : Keeps own fs fs' := by
  refine ⟨hhollow, fun c hc => ?_⟩
  have hat := at?_eq hhollow c
  cases hafter : fs'.at? c with
  | none =>
    rw [hafter, eq_comm, Option.map_none, Option.map_eq_none_iff] at hat
    rw [fileAt?, fileAt?, hafter, hat]
  | some e' =>
    rw [hafter, eq_comm, Option.map_some] at hat
    obtain ⟨e, hbefore, he⟩ := Option.map_eq_some_iff.1 hat
    rw [fileAt?, fileAt?, hafter, hbefore]
    cases e' with
    | folder entries => cases e <;> first | rfl | cases he
    | link target => cases e <;> first | rfl | cases he
    | file after =>
      cases e with
      | folder entries => cases he
      | link target => cases he
      | file before =>
        by_cases heq : after = before
        · rw [heq]
        · exact absurd hc (h _ (mem_changedSince hbefore hafter heq))

theorem distinct_eq (h : fs'.hollow = fs.hollow) (seen : List (Location ⊕ List Component))
    (paths : List Path) : fs'.distinct seen paths = fs.distinct seen paths := by
  induction paths generalizing seen with
  | nil => rfl
  | cons p ps ih => rw [distinct, distinct, fileKey, fileKey, resolve_eq h, ih, ih]

namespace Keeps

variable (h : Keeps own fs fs')

include h

theorem walk_eq {walk : Walker} (hwalk : walk.ReadsRules own) : walk fs' = walk fs :=
  hwalk fs fs' h.hollow fun c hc => h.content c (Or.inr hc)

theorem gather_eq {walk : Walker} (hwalk : walk.ReadsRules own) (search : Search)
    (targets : List Path) :
    fs'.gather (fs'.expand walk search) targets = fs.gather (fs.expand walk search) targets := by
  have hexpand : fs'.expand walk search = fs.expand walk search := by
    funext target
    rw [expand, expand, ← hollow_isFolder, h.hollow, hollow_isFolder, collect, collect,
      h.walk_eq hwalk]
  rw [gather, gather, hexpand, distinct_eq h.hollow]

theorem settingsIn?_eq (decode : String → Option Settings) (folder : Path) :
    fs'.settingsIn? decode folder = fs.settingsIn? decode folder := by
  have hread : fs'.read (folder.join settingsName) = fs.read (folder.join settingsName) := by
    have hresolve' := resolve_eq h.hollow (folder.join settingsName)
    cases hresolve : fs.resolve (folder.join settingsName) with
    | error f =>
      rw [hresolve] at hresolve'
      rw [read, read, hresolve', hresolve]
    | ok c =>
      rw [hresolve] at hresolve'
      rw [read_of_resolve hresolve', read_of_resolve hresolve,
        h.content c (Or.inl ⟨folder, hresolve⟩)]
  rw [settingsIn?, settingsIn?, hread]

theorem settingsFor_eq (decode : String → Option Settings) (target : Path) :
    fs'.settingsFor decode target = fs.settingsFor decode target := by
  have hfolders : fs'.settingsFolders target = fs.settingsFolders target := by
    rw [settingsFolders, settingsFolders, ← hollow_isFile, h.hollow, hollow_isFile]
  have hin : fs'.settingsIn? decode = fs.settingsIn? decode := funext (h.settingsIn?_eq decode)
  rw [settingsFor, settingsFor, hfolders, hin]

end Keeps

end FileSystem

end Downlevel
