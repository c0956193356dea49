import Downlevel.Tools
import Downlevel.Tree.Table

/-!
# The program

Takes a picture of the files that a call can reach, runs the command on the
picture, and writes back what it changed. The syntax trees of the sources are
read from standard input.
-/

namespace Downlevel

def diskLocation? (name : String) : IO (Option Location) := do
  try
    let real ← IO.FS.realPath name
    return some ((Path.ofText real.toString).pieces.filter (· != ""))
  catch _ => return none

def diskType? (l : Location) : IO (Option IO.FS.FileType) := do
  let entry : IO.FS.DirEntry := ⟨(Location.path l.dropLast).text, l.getLast?.getD "."⟩
  try return some (← entry.path.symlinkMetadata).type
  catch _ => return none

/-- A target for links that lead nowhere: no name on disk holds this character. -/
def nowhere : Path := ⟨false, ["\x00"]⟩

/-- Adds what stands at a location on disk: of a folder all that lies below it if
`deep`, of a link also the place that it leads to. -/
partial def addFromDisk (deep : Bool) (fs : FileSystem) (l : Location) : IO FileSystem := do
  let name := (Location.path l).text
  match ← diskType? l with
  | none => return fs
  | some .dir =>
    let fs := fs.insert l (.folder [])
    if deep then
      let entries ← (← IO.FS.realPath name).readDir
      entries.foldlM (fun fs e => addFromDisk true fs (l ++ [e.fileName])) fs
    else return fs
  | some .symlink =>
    match ← diskLocation? name with
    | none => return fs.insert l (.link nowhere)
    | some target => addFromDisk false (fs.insert l (.link target.path)) target
  | some .file => return fs.insert l (.file (← IO.FS.readBinFile name))
  | some .other => return fs.insert l (.file .empty)

def governingFiles : List Location :=
  [[settingsName], [".ignore"], [".gitignore"], [".git"], [".git", "info", "exclude"]]

def addGoverning (fs : FileSystem) (folder : Location) : IO FileSystem :=
  governingFiles.foldlM (fun fs names => addFromDisk false fs (folder ++ names)) fs

def addTarget (fs : FileSystem) (target : Path) : IO FileSystem := do
  let mut fs := fs
  for p in target.ancestors do
    if let some folder ← diskLocation? (p.join ".").text then
      fs ← addGoverning fs folder
    if let (some parent, some name) := (p.parent?, p.fileName?) then
      if let some folder ← diskLocation? (parent.join ".").text then
        fs ← addFromDisk false fs (folder ++ [name])
  match ← diskLocation? target.text with
  | none => return fs
  | some l =>
    let above := (List.range l.length).map l.take
    addFromDisk true (← above.foldlM addGoverning fs) l

def ownRulesPath? : IO (Option Path) := do
  let configured := (← IO.getEnv "XDG_CONFIG_HOME").filter (· != "")
  let home := ((← IO.getEnv "HOME").filter (· != "")).map (· ++ "/.config")
  return (configured <|> home).map fun folder => Path.ofText (folder ++ "/git/ignore")

/-- The picture of the disk that the targets of a call need. -/
def diskFor (ownRules : Option Path) (targets : List Path) : IO FileSystem := do
  let current := (← diskLocation? ".").getD []
  let fs := (FileSystem.mk (.folder []) current).insert current (.folder [])
  let fs ← match ownRules with
    | none => pure fs
    | some path => do
      match ← diskLocation? (path.parent?.getD path).text, path.fileName? with
      | some folder, some name => addFromDisk false fs (folder ++ [name])
      | _, _ => pure fs
  targets.foldlM addTarget fs

end Downlevel

open Downlevel in
def main (words : List String) : IO UInt32 := do
  let ownRules ← ownRulesPath?
  let (fs, table) ← match Arguments.parse words with
    | .ok a =>
      pure (← diskFor ownRules a.targets, TreeTable.ofLines (← (← IO.getStdin).lines).toList)
    | .error _ => pure (⟨.folder [], []⟩, ⟨[]⟩)
  match runCommand (.standard table.tree ownRules) fs words with
  | none => return 101
  | some result =>
    for (l, content) in result.fs.changedSince fs do
      IO.FS.writeBinFile (Location.path l).text content
    IO.print result.output
    return result.code.toUInt32
