import Downlevel.FileSystem.Resolve

/-!
# Settings files

Settings for a target are looked for in its folder and in the folders above it, as
the target's path is spelled. How the text of a file tells settings is left to a
reader. Files that cannot be read or are malformed are passed over.
-/

namespace Downlevel

/-- What a settings file may say. Unset values leave the choice to others. -/
structure Settings where
  maxPasses : Option Nat := none
  exclude : Option (List String) := none
  forced : Option (List String) := none
  extensions : Option (List String) := none
  allowErrors : Option Bool := none
  deriving DecidableEq, Repr

def settingsName : String := ".cxx-backport.toml"

/-- Drops a limit that would allow no pass at all. -/
def Settings.dropInvalid (s : Settings) : Settings :=
  if s.maxPasses = some 0 then { s with maxPasses := none } else s

namespace FileSystem

variable (fs : FileSystem) (decode : String → Option Settings)

def settingsIn? (folder : Path) : Option (Settings × Path) :=
  let file := folder.join settingsName
  match fs.read file with
  | .ok text => (decode text).map fun s => (s.dropInvalid, file)
  | .error _ => none

def settingsFolders (target : Path) : List Path :=
  if fs.isFile target then (target.parent?.getD target).ancestors else target.ancestors

def settingsFor (target : Path) : Settings × Option Path :=
  match (fs.settingsFolders target).findSome? (fs.settingsIn? decode) with
  | some (s, file) => (s, some file)
  | none => ({}, none)

end FileSystem

end Downlevel
