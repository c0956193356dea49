/-!
# Box tables

A table of one heading and one row, drawn with box characters. Every column is
as wide as its longest cell; cells stand to the left, with a space on both
sides.
-/

namespace Downlevel.Table

def pad (width : Nat) (s : String) : String :=
  s ++ String.ofList (List.replicate (width - s.length) ' ')

/-- A rule across the table: its left end, line, crossings and right end. -/
def rule (left line cross right : String) (widths : List Nat) : String :=
  let run (width : Nat) : String := String.join (List.replicate (width + 2) line)
  left ++ cross.intercalate (widths.map run) ++ right ++ "\n"

def row (widths : List Nat) (cells : List String) : String :=
  "│ " ++ " ┆ ".intercalate (widths.zipWith pad cells) ++ " │\n"

def render (heading cells : List String) : String :=
  let widths := heading.zipWith (fun h c => max h.length c.length) cells
  rule "┌" "─" "┬" "┐" widths ++ row widths heading ++ rule "╞" "═" "╪" "╡" widths ++
    row widths cells ++ rule "└" "─" "┴" "┘" widths

end Downlevel.Table
