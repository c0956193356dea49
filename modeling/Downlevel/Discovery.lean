import Downlevel.FileSystem.Resolve
import Downlevel.Path.Extension
import Downlevel.Path.Order

/-!
# Discovery of sources

The files below a folder that carry one of the wanted extensions. A walk shows
what lies below the folder; it is told to keep out of folders with certain names.
Links are listed like files.
-/

namespace Downlevel

def defaultExcludes : List String :=
  [".git", ".svn", ".hg", "build", "cmake-build-debug", "cmake-build-release", "CMakeFiles",
    "out", "third_party", "vendor", "node_modules", ".cache"]

def defaultExtensions : List String :=
  ["cpp", "cc", "cxx", "c++", "hpp", "hh", "hxx", "h", "h++", "ipp", "inl", "tpp"]

/-- A pattern is a name itself, or a star for all names that end in an extension. -/
def matchesName (name pattern : String) : Bool :=
  match pattern.toList with
  | '*' :: '.' :: suffix => ('.' :: suffix).isSuffixOf name.toList
  | _ => name == pattern

def isExcluded (name : String) (patterns : List String) : Bool :=
  patterns.any (matchesName name)

structure Search where
  exclude : List String := []
  /-- Patterns that are taken off the excluded ones, also off the default ones. -/
  forced : List String := []
  extensions : List String

def Search.patterns (s : Search) : List String :=
  (s.exclude ++ defaultExcludes).filter (!s.forced.contains ·)

structure Visit where
  path : Path
  isFolder : Bool
  /-- The entry's own name. There is none if it is not text. -/
  name? : Option String
  deriving DecidableEq, Repr

/-- A walk from a path through all that lies below it. It shows an entry, and goes into it, only if
it is told to keep it. Where it cannot go on, it shows why. -/
abbrev Walker := FileSystem → Path → (Visit → Bool) → List (Except SystemFault Visit)

/-- The path that a walk starts from, as the walk shows it. A link is shown as one. -/
def FileSystem.rootVisit (fs : FileSystem) (root : Path) : Visit :=
  ⟨root, fs.isFolder root && !fs.isLink root, some (root.fileName?.getD root.text)⟩

/-- Whether two spellings of a path have the same components. -/
def Path.isSame (p q : Path) : Bool := p.components == q.components

/-- Whether a walk from `root` is to keep an entry. Only folders are left out, by their names, and
never the root. -/
def Search.keeps (s : Search) (root : Path) (v : Visit) : Bool :=
  if v.path.isSame root then true
  else if !v.isFolder then true
  else v.name?.all fun name => !isExcluded name s.patterns

structure Found where
  files : List Path := []
  folders : Nat := 0

def Found.add (search : Search) (root : Path) (found : Found) :
    Except SystemFault Visit → Found
  | .error _ => found
  | .ok v =>
    if v.isFolder then
      if v.path.isSame root then found else { found with folders := found.folders + 1 }
    else if v.path.hasExtension search.extensions then
      { found with files := found.files ++ [v.path] }
    else found

/-- The sources below a path, in the order of paths, and the number of folders below it. -/
def FileSystem.collect (fs : FileSystem) (walk : Walker) (search : Search) (root : Path) :
    List Path × Nat :=
  let found := (walk fs root (search.keeps root)).foldl (Found.add search root) {}
  (found.files.mergeSort Path.le, found.folders)

end Downlevel
