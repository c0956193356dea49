import Downlevel.Ignore.Glob
import Downlevel.Text.Blank

/-!
# Ignore rules

A line of an ignore file is a pattern for paths below the file's folder. Of the
rules of one file that match a path, the last decides.
-/

namespace Downlevel

inductive Verdict where
  | ignored | kept
  deriving DecidableEq, Repr

structure IgnoreRule where
  glob : Glob
  verdict : Verdict
  foldersOnly : Bool

namespace IgnoreRule

/-- Splits the marks off the front of a line: what a match means, whether the
pattern starts at the file's folder, and the rest. -/
def marks : List Char → Verdict × Bool × List Char
  | '\\' :: '!' :: cs => (.ignored, false, '!' :: cs)
  | '\\' :: '#' :: cs => (.ignored, false, '#' :: cs)
  | '!' :: '/' :: cs => (.kept, true, cs)
  | '!' :: cs => (.kept, false, cs)
  | '/' :: cs => (.ignored, true, cs)
  | cs => (.ignored, false, cs)

def folderMark (cs : List Char) : Bool × List Char :=
  match cs.reverse with
  | '/' :: '\\' :: rest => (true, rest.reverse)
  | '/' :: rest => (true, rest.reverse)
  | _ => (false, cs)

/-- The pattern of a rule, whole. A pattern without slashes matches on every
level; one that ends in all that lies below a folder does not match the folder. -/
def pattern (anchored : Bool) (cs : List Char) : List Char :=
  let doubleStar := "**/".toList
  let floating :=
    if anchored || cs.contains '/' || cs == "**".toList then cs else doubleStar ++ cs
  if "/**".toList.isSuffixOf floating then floating ++ "/*".toList else floating

/-- Reads a line. Blank lines, comments and faulty patterns are no rules. -/
def ofLine? (line : String) : Option IgnoreRule :=
  let cs := line.toList
  let cs := if "\\ ".toList.isSuffixOf cs then cs else Text.trimEnd cs
  if cs.isEmpty || cs.head? == some '#' then none
  else
    let (verdict, anchored, cs) := marks cs
    let (foldersOnly, cs) := folderMark cs
    (Glob.ofText? (String.ofList (pattern anchored cs))).map (⟨·, verdict, foldersOnly⟩)

def applies (r : IgnoreRule) (names : List String) (isFolder : Bool) : Bool :=
  (isFolder || !r.foldersOnly) && r.glob.isMatch ("/".intercalate names)

def judge (rules : List IgnoreRule) (names : List String) (isFolder : Bool) : Option Verdict :=
  (rules.reverse.find? (·.applies names isFolder)).map (·.verdict)

end IgnoreRule

/-- Cuts a content after every newline. The newlines are dropped, each with a
carriage return right before it. -/
def splitLines : List UInt8 → List (List UInt8)
  | [] => []
  | 10 :: bs => [] :: splitLines bs
  | 13 :: 10 :: bs => [] :: splitLines bs
  | b :: bs =>
    match splitLines bs with
    | [] => [[b]]
    | line :: lines => (b :: line) :: lines

/-- The texts of lines, up to the first line that is not text. -/
def decodeLines : List (List UInt8) → List String
  | [] => []
  | line :: lines =>
    match String.fromUTF8? ⟨line.toArray⟩ with
    | some text => text :: decodeLines lines
    | none => []

def linesOf (content : ByteArray) : List String :=
  decodeLines (splitLines content.toList)

/-- The rules of an ignore file. A byte order mark at the front is passed over. -/
def IgnoreRule.ofContent (content : ByteArray) : List IgnoreRule :=
  match linesOf content with
  | [] => []
  | first :: rest =>
    let first := String.ofList (first.toList.dropWhile (· == '\ufeff'))
    (first :: rest).filterMap ofLine?

end Downlevel
