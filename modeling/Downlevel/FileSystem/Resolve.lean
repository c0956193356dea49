import Downlevel.FileSystem

/-!
# Resolution of paths

A path is resolved piece by piece. Each piece is looked up in a folder; a link
is replaced by the pieces of its target. At most forty links are followed.
-/

namespace Downlevel

inductive SystemFault where
  | notFound | notFolder | isFolder | tooManyLinks | notText
  deriving DecidableEq, Repr

def SystemFault.message : SystemFault → String
  | notFound => "No such file or directory (os error 2)"
  | notFolder => "Not a directory (os error 20)"
  | isFolder => "Is a directory (os error 21)"
  | tooManyLinks => "Too many levels of symbolic links (os error 40)"
  | notText => "stream did not contain valid UTF-8"

namespace FileSystem

/-- Follows pieces from a location up to the first link. From there on `onLink` goes on: it is
given the location where the link's target starts, and the pieces of the target before those
that are left. -/
def followTo (fs : FileSystem) (onLink : Location → List String → Except SystemFault Location) :
    Location → List String → Except SystemFault Location
  | here, [] => .ok here
  | here, piece :: rest =>
    match fs.at? here with
    | none => .error .notFound
    | some (.folder entries) =>
      if piece = "" ∨ piece = "." then fs.followTo onLink here rest
      else if piece = ".." then fs.followTo onLink here.dropLast rest
      else
        match entries.lookup piece with
        | none => .error .notFound
        | some (.link target) => onLink (if target.rooted then [] else here) (target.pieces ++ rest)
        | some _ => fs.followTo onLink (here ++ [piece]) rest
    | some _ => .error .notFolder

def follow (fs : FileSystem) : Nat → Location → List String → Except SystemFault Location
  | 0 => fs.followTo fun _ _ => .error .tooManyLinks
  | links + 1 => fs.followTo (fs.follow links)

def linkLimit : Nat := 40

def resolve (fs : FileSystem) (p : Path) : Except SystemFault Location :=
  if p.isEmpty then .error .notFound
  else fs.follow linkLimit (if p.rooted then [] else fs.current) p.pieces

/-- The entry that a path leads to, which is no link. -/
def find? (fs : FileSystem) (p : Path) : Option Entry :=
  match fs.resolve p with
  | .ok l => fs.at? l
  | .error _ => none

def exists? (fs : FileSystem) (p : Path) : Bool := (fs.find? p).isSome

def isFile (fs : FileSystem) (p : Path) : Bool :=
  match fs.find? p with
  | some (.file _) => true
  | _ => false

def isFolder (fs : FileSystem) (p : Path) : Bool :=
  match fs.find? p with
  | some (.folder _) => true
  | _ => false

/-- Whether the path itself, not what it leads to, is a link. -/
def isLink (fs : FileSystem) (p : Path) : Bool :=
  match p.pieces.getLast?, fs.resolve ⟨p.rooted, p.pieces.dropLast ++ ["."]⟩ with
  | some name, .ok l =>
    match Component.ofPiece? name, fs.at? (l ++ [name]) with
    | some (.name _), some (.link _) => true
    | _, _ => false
  | _, _ => false

def read (fs : FileSystem) (p : Path) : Except SystemFault String :=
  match fs.resolve p with
  | .error f => .error f
  | .ok l =>
    match fs.at? l with
    | some (.file content) =>
      match String.fromUTF8? content with
      | some text => .ok text
      | none => .error .notText
    | _ => .error .isFolder

end FileSystem

end Downlevel
