import Downlevel.Path

/-!
# File systems

A file system is a value: a tree of folders, files and symbolic links. A
location is the list of names that leads to an entry from the top, through
folders only.
-/

namespace Downlevel

inductive Entry where
  | file (content : ByteArray)
  | folder (entries : List (String × Entry))
  | link (target : Path)

/-- The names that lead to an entry from the top. -/
abbrev Location := List String

def Location.path (l : Location) : Path := ⟨true, l⟩

namespace Entry

def isFolder : Entry → Bool
  | folder _ => true
  | _ => false

/-- The entry at a location below this one. Links are not followed. -/
def at? : Entry → Location → Option Entry
  | e, [] => some e
  | folder entries, name :: rest =>
    match entries.lookup name with
    | some e => e.at? rest
    | none => none
  | _, _ :: _ => none

/-- Replaces the content of the file at a location. Nothing happens where there is no file. -/
def write (content : ByteArray) : Location → Entry → Entry
  | [], file _ => file content
  | name :: rest, folder entries =>
    folder (entries.map fun (n, e) => if n = name then (n, write content rest e) else (n, e))
  | _, e => e

/-- Puts an entry at a location. Folders on the way are made as needed; a folder
that is there already keeps what it holds when an empty one is put there. -/
def insert (new : Entry) : Location → Entry → Entry
  | [], old =>
    match new, old with
    | folder [], folder entries => folder entries
    | _, _ => new
  | name :: rest, folder entries =>
    let old := (entries.lookup name).getD (folder [])
    folder (entries.filter (·.1 != name) ++ [(name, insert new rest old)])
  | name :: rest, _ => folder [(name, insert new rest (folder []))]

mutual

def files (l : Location) : Entry → List (Location × ByteArray)
  | file content => [(l, content)]
  | folder entries => filesIn l entries
  | link _ => []

def filesIn (l : Location) : List (String × Entry) → List (Location × ByteArray)
  | [] => []
  | (name, e) :: rest => e.files (l ++ [name]) ++ filesIn l rest

end

end Entry

/-- A file system and the folder in which relative paths start. -/
structure FileSystem where
  top : Entry
  current : Location := []

namespace FileSystem

def at? (fs : FileSystem) (l : Location) : Option Entry := fs.top.at? l

def write (fs : FileSystem) (l : Location) (text : String) : FileSystem :=
  { fs with top := fs.top.write text.toUTF8 l }

def insert (fs : FileSystem) (l : Location) (e : Entry) : FileSystem :=
  { fs with top := Entry.insert e l fs.top }

def changedSince (fs old : FileSystem) : List (Location × ByteArray) :=
  (fs.top.files []).filter fun (l, content) =>
    match old.at? l with
    | some (.file before) => content != before
    | _ => true

end FileSystem

end Downlevel
