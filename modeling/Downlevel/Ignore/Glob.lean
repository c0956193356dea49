/-!
# Glob patterns

Patterns over paths, byte by byte. A star and a question mark match no slash;
two stars that make up a whole piece of the pattern match any number of
folders.
-/

namespace Downlevel

inductive Glob.Part where
  | byte (b : UInt8)
  /-- Any one byte but a slash. -/
  | any
  /-- Any bytes but slashes. -/
  | star
  /-- Folders at the front, also none. -/
  | leading
  /-- A slash, or folders between two slashes. -/
  | between
  /-- A slash and all that follows. -/
  | under
  /-- One byte in one of the ranges, or in none of them. -/
  | oneOf (negated : Bool) (ranges : List (UInt8 × UInt8))
  /-- One of several patterns; nothing if there are none. -/
  | choice (branches : List (List Glob.Part))

abbrev Glob := List Glob.Part

namespace Glob

def slash : UInt8 := '/'.toUInt8

def bytesOf (c : Char) : List UInt8 := (String.singleton c).toUTF8.toList

def tails : List UInt8 → List (List UInt8)
  | [] => [[]]
  | b :: bs => (b :: bs) :: tails bs

/-- What may be left of a text after a run of bytes that are no slashes. -/
def afterRun : List UInt8 → List (List UInt8)
  | [] => [[]]
  | b :: bs => if b = slash then [b :: bs] else (b :: bs) :: afterRun bs

def afterSlashes : List UInt8 → List (List UInt8)
  | [] => []
  | b :: bs => if b = slash then bs :: afterSlashes bs else afterSlashes bs

mutual

/-- What may be left of a text after the part has matched a beginning of it. -/
def Part.rests : Part → List UInt8 → List (List UInt8)
  | .byte b, c :: cs => if c = b then [cs] else []
  | .any, c :: cs => if c = slash then [] else [cs]
  | .star, cs => afterRun cs
  | .leading, cs => cs :: afterSlashes cs
  | .between, c :: cs => if c = slash then cs :: afterSlashes cs else []
  | .under, c :: cs => if c = slash then tails cs else []
  | .oneOf negated ranges, c :: cs =>
    if ranges.any (fun r => r.1 ≤ c && c ≤ r.2) != negated then [cs] else []
  | .choice [], cs => [cs]
  | .choice (branch :: branches), cs => rests branch cs ++ choiceRests branches cs
  | _, [] => []

def rests : List Part → List UInt8 → List (List UInt8)
  | [], cs => [cs]
  | p :: ps, cs => (p.rests cs).flatMap fun left => rests ps left

def choiceRests : List (List Part) → List UInt8 → List (List UInt8)
  | [], _ => []
  | branch :: branches, cs => rests branch cs ++ choiceRests branches cs

end

/-- Whether a pattern matches the whole of a text. Two stars alone match everything. -/
def isMatch : Glob → String → Bool
  | [.leading], _ => true
  | glob, text => (rests glob text.toUTF8.toList).contains []

/-! ## Reading patterns -/

/-- A level of nested choices while a pattern is read, all lists backwards. -/
structure Level where
  branches : List Glob := []
  current : Glob := []

structure Bracket where
  negated : Bool
  ranges : List (Char × Char) := []
  /-- Whether the last range still waits for its end. -/
  pending : Bool := false

/-- Adds a character to a bracket, unless it ends a range before the range's start. -/
def Bracket.add (k : Bracket) (c : Char) : Option Bracket :=
  match k.pending, k.ranges with
  | true, (low, _) :: rest =>
    if c < low then none else some { k with ranges := (low, c) :: rest, pending := false }
  | _, ranges =>
    if c = '-' ∧ ranges ≠ [] then some { k with pending := true }
    else some { k with ranges := (c, c) :: ranges, pending := false }

/-- The byte ranges of a range of characters, which are spelled out byte by byte. -/
def byteRanges (r : Char × Char) : List (UInt8 × UInt8) :=
  let low := bytesOf r.1
  let high := bytesOf r.2
  if r.1 = r.2 then low.map fun b => (b, b)
  else
    low.dropLast.map (fun b => (b, b)) ++ [(low.getLastD 0, high.headD 0)] ++
      high.tail.map fun b => (b, b)

def Bracket.part (k : Bracket) : Part :=
  let ranges := if k.pending then ('-', '-') :: k.ranges else k.ranges
  .oneOf k.negated (ranges.reverse.flatMap byteRanges)

inductive Bracketed where
  | closed (k : Bracket) (rest : List Char)
  /-- The text ends before the bracket does. -/
  | unclosed
  | faulty

/-- Reads a bracket up to its end. A closing bracket at the front is a character like others. -/
def readBracket (k : Bracket) : List Char → Bracketed
  | [] => .unclosed
  | c :: cs =>
    if c = ']' ∧ k.ranges ≠ [] then .closed k cs
    else
      match k.add c with
      | some k => readBracket k cs
      | none => .faulty

theorem length_readBracket_lt {k l : Bracket} {cs rest : List Char}
    (h : readBracket k cs = .closed l rest) : rest.length < cs.length := by
  induction cs generalizing k with
  | nil => simp [readBracket] at h
  | cons c cs ih =>
    rw [readBracket] at h
    split at h
    · injection h with _ h
      subst h
      simp
    · split at h
      · have := ih h
        simp only [List.length_cons]
        omega
      · simp at h

def Part.isVoid : Part → Bool
  | .choice [] => true
  | _ => false

/-- A choice between branches. Those that can only stand for nothing do not count. -/
def choiceOf (branches : List Glob) : Part :=
  .choice (branches.filter fun branch => !branch.all Part.isVoid)

def isNegation (c : Char) : Bool := c == '!' || c == '^'

/-- Reads a pattern. `previous` is the character before, `inner` and `outer` are the
levels of choices that are still open, innermost first. -/
def read (previous : Option Char) (inner : Level) (outer : List Level) (cs : List Char) :
    Option Glob :=
  let put (p : Part) : Level := { inner with current := p :: inner.current }
  match cs with
  | [] => if outer.isEmpty then some inner.current.reverse else none
  | '?' :: cs => read (some '?') (put .any) outer cs
  | '*' :: '*' :: cs =>
    let ends := cs.isEmpty || (!outer.isEmpty && (cs.head? == some ',' || cs.head? == some '}'))
    let starts := previous == some '/' ||
      (!outer.isEmpty && (previous == some ',' || previous == some '{'))
    match inner.current, cs with
    | [], [] => read (some '*') { inner with current := [.leading] } outer []
    | [], '/' :: cs => read (some '/') { inner with current := [.leading] } outer cs
    | last :: before, cs =>
      let folders (p : Part) : Level :=
        match last with
        | .leading | .under => inner
        | _ => { inner with current := p :: before }
      if !starts then
        read (some '*') { inner with current := .star :: .star :: inner.current } outer cs
      else if ends then read (some '*') (folders .under) outer cs
      else
        match cs with
        | '/' :: cs => read (some '/') (folders .between) outer cs
        | cs => read (some '*') { inner with current := .star :: .star :: inner.current } outer cs
    | [], cs => read (some '*') { inner with current := [.star, .star] } outer cs
  | '*' :: cs => read (some '*') (put .star) outer cs
  | '[' :: cs =>
    let negated := (cs.head?.map isNegation).getD false
    match h : readBracket ⟨negated, [], false⟩ (if negated then cs.tail else cs) with
    | .closed k rest =>
      have := length_readBracket_lt h
      have : (if negated then cs.tail else cs).length ≤ cs.length := by split <;> simp
      read (some ']') (put k.part) outer rest
    | .unclosed => read (some '[') (put (.byte '['.toUInt8)) outer cs
    | .faulty => none
  | '\x7b' :: cs => read (some '\x7b') {} (inner :: outer) cs
  | '\x7d' :: cs =>
    match outer with
    | [] => none
    | level :: outer =>
      let branch := choiceOf (inner.current.reverse :: inner.branches).reverse
      read (some '\x7d') { level with current := branch :: level.current } outer cs
  | '\\' :: [] => none
  | '\\' :: c :: cs =>
    read (some c) { inner with current := ((bytesOf c).map .byte).reverse ++ inner.current }
      outer cs
  | c :: cs =>
    if c = ',' ∧ outer ≠ [] then
      read (some c) ⟨inner.current.reverse :: inner.branches, []⟩ outer cs
    else
      read (some c) { inner with current := ((bytesOf c).map .byte).reverse ++ inner.current }
        outer cs
termination_by cs.length
decreasing_by all_goals (simp only [wfParam, List.length_cons]; omega)

def ofText? (text : String) : Option Glob := read none {} [] text.toList

end Glob

end Downlevel
