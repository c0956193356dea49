import Downlevel.Path

/-!
# Extensions of file names

The extension of a name is what follows its last dot. A dot at the very front
hides a file and starts no extension.
-/

namespace Downlevel

def extension? (name : String) : Option String :=
  let backwards := name.toList.reverse
  match backwards.dropWhile (· != '.') with
  | _ :: _ :: _ => some (String.ofList (backwards.takeWhile (· != '.')).reverse)
  | _ => none

def lowercase (s : String) : String := s.map Char.toLower

def Path.hasExtension (p : Path) (extensions : List String) : Bool :=
  match p.fileName?.bind extension? with
  | some ext => extensions.any fun e => lowercase e == lowercase ext
  | none => false

end Downlevel
