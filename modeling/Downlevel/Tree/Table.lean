import Downlevel.Text.Digest
import Downlevel.Tree.Listing

/-!
# Tables of syntax trees

A parser of C++ hands over its trees as a table, line by line. A tree starts
with the line `tree` and the digest of the text that was parsed; its listing
follows, one node a line: start, end, flags, number of children and kind. The
flags are one for a named node, two for one that the parser made up, and three
for both. A newline in a kind is written as `\n`.
-/

namespace Downlevel

def ListedNode.ofLine? (line : String) : Option ListedNode :=
  match line.splitOn " " with
  | start :: stop :: flags :: arity :: kind => do
    let flags ← flags.toNat?
    return {
      kind := Kind.ofName ((" ".intercalate kind).replace "\\n" "\n")
      start := ← start.toNat?
      stop := ← stop.toNat?
      named := flags % 2 == 1
      missing := flags / 2 % 2 == 1
      arity := ← arity.toNat? }
  | _ => none

structure TreeTable where
  trees : List (String × Node)

namespace TreeTable

/-- Puts a line in front of the trees that follow it and of the finished part of the table. -/
def addLine (line : String) : List Node × List (String × Node) → List Node × List (String × Node)
  | (trees, table) =>
    match line.splitOn " ", ListedNode.ofLine? line with
    | ["tree", digest], _ => ([], (trees.head?.toList.map fun n => (digest, n)) ++ table)
    | _, some l => (l.gather trees, table)
    | _, none => (trees, table)

def ofLines (lines : List String) : TreeTable :=
  ⟨(lines.foldr addLine ([], [])).2⟩

/-- The tree of a text. A text that the table does not hold is one syntax error. -/
def tree (t : TreeTable) (text : String) : Node :=
  (t.trees.lookup (Text.digest text)).getD ⟨.error, 0, text.utf8ByteSize, true, false, []⟩

end TreeTable

end Downlevel
