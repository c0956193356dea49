import Downlevel.Path

/-!
# Paths in messages

Messages show paths with forward slashes, without the prefix of extended
Windows paths, and without a leading `./`.
-/

namespace Downlevel

/-- Drops the prefix of extended Windows paths, as often as it stands there. -/
def dropVerbatim : List Char → List Char
  | '\\' :: '\\' :: '?' :: '\\' :: rest => dropVerbatim rest
  | cs => cs

def displayText (text : String) : String :=
  let forward := (dropVerbatim text.toList).map fun c => if c = '\\' then '/' else c
  match forward with
  | '.' :: '/' :: rest => String.ofList rest
  | cs => String.ofList cs

def Path.display (p : Path) : String := displayText p.text

end Downlevel
