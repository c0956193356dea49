/-!
# Lines and columns

A text's lines begin at its start and after every newline. The line of a position
is found by halving the list of these beginnings. Lines and columns are counted
from one; columns count bytes. Positions past the end belong to the last line.
-/

namespace Downlevel.Text

/-- Where lines begin in `cs`, whose first character stands at byte `offset`. -/
def startsAfter (offset : Nat) : List Char → List Nat
  | [] => []
  | c :: cs =>
    let next := offset + c.utf8Size
    if c = '\n' then next :: startsAfter next cs else startsAfter next cs

def lineStarts (s : String) : List Nat :=
  0 :: startsAfter 0 s.toList

/-- Looks for a number in an increasing list, from one position up to another. A number that is
there gives its position; one that is not gives, as an error, the position where it belongs. -/
def searchBetween (xs : List Nat) (x low high : Nat) : Except Nat Nat :=
  if low < high then
    let middle := low + (high - low) / 2
    let y := xs.getD middle 0
    if y = x then .ok middle
    else if y < x then searchBetween xs x (middle + 1) high
    else searchBetween xs x low middle
  else .error low
termination_by high - low

def search (xs : List Nat) (x : Nat) : Except Nat Nat := searchBetween xs x 0 xs.length

/-- The number of the line that a search among the starts of lines comes to. Where no line begins at
the byte itself, that is the last one that begins before. -/
def lineFound : Except Nat Nat → Nat
  | .ok index => index + 1
  | .error index => index

def lineOf (s : String) (offset : Nat) : Nat :=
  lineFound (search (lineStarts s) offset)

structure Place where
  line : Nat
  column : Nat
  deriving DecidableEq, Repr

def placeOf (s : String) (offset : Nat) : Place :=
  let line := lineOf s offset
  ⟨line, offset - (lineStarts s).getD (line - 1) 0 + 1⟩

end Downlevel.Text
