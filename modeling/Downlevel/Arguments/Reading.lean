import Downlevel.Arguments

/-!
# Reading arguments

Arguments are read from left to right. The value of an option may be attached
to it by an equals sign or follow it. Values that follow wait until the next
argument shows that they are complete, and are checked only then; so a word
that is no argument at all is found before a faulty value in front of it.
-/

namespace Downlevel

def versionText : String := "cxx-backport 0.1.0\n"

def helpText : String :=
  aboutText ++ "\n\nUsage: cxx-backport [OPTIONS] [PATHS]...\n\n" ++ settingsHelp

inductive Slot where
  | paths | root | maxPasses | exclude | forced | extensions
  deriving DecidableEq, Repr

inductive Target where
  | flag (f : Flag)
  | slot (s : Slot)
  | help | version
  deriving DecidableEq, Repr

def Target.ofLong? : String → Option Target
  | "root" => some (.slot .root)
  | "apply" => some (.flag .apply)
  | "check" => some (.flag .check)
  | "stdout" => some (.flag .stdout)
  | "json" => some (.flag .json)
  | "verbose" => some (.flag .verbose)
  | "quiet" => some (.flag .quiet)
  | "max-passes" => some (.slot .maxPasses)
  | "exclude-folders" | "exclude-folder" => some (.slot .exclude)
  | "include-folders" | "include-folder" => some (.slot .forced)
  | "extensions" | "ext" => some (.slot .extensions)
  | "allow-parse-errors" => some (.flag .allowErrors)
  | "help" => some .help
  | "version" => some .version
  | _ => none

def Target.ofShort? : Char → Option Target
  | 'a' => some (.flag .apply)
  | 'v' => some (.flag .verbose)
  | 'h' => some .help
  | 'V' => some .version
  | _ => none

/-- Reads a number of passes: decimal digits, perhaps after a plus sign, from one up
to what 32 bits can hold. -/
def passCount? (text : String) : Option Nat :=
  let digits : List Char :=
    match text.toList with
    | '+' :: cs => cs
    | cs => cs
  let n : Nat := digits.foldl (fun n c => n * 10 + (c.toNat - '0'.toNat)) 0
  if digits ≠ [] ∧ digits.all Char.isDigit ∧ 1 ≤ n ∧ n ≤ 0xffffffff then some n else none

def splitComma : List Char → List (List Char)
  | [] => [[]]
  | c :: cs =>
    if c = ',' then [] :: splitComma cs
    else
      match splitComma cs with
      | [] => [[c]]
      | piece :: pieces => (c :: piece) :: pieces

namespace Arguments

def assign (a : Arguments) (slot : Slot) (values : List String) : Except ArgumentStop Arguments :=
  match slot, values with
  | .paths, values =>
    if values.contains "" then .error .invalidValue
    else .ok { a with paths := a.paths ++ values.map Path.ofText }
  | _, [] => .error .invalidValue
  | .root, value :: _ =>
    if a.root.isSome then .error .conflict
    else if value = "" then .error .invalidValue
    else .ok { a with root := some (Path.ofText value) }
  | .maxPasses, value :: _ =>
    if a.maxPasses.isSome then .error .conflict
    else
      match passCount? value with
      | some n => .ok { a with maxPasses := some n }
      | none => .error .valueValidation
  | .exclude, values => .ok { a with exclude := a.exclude ++ values }
  | .forced, values => .ok { a with forced := a.forced ++ values }
  | .extensions, values =>
    let pieces := values.flatMap fun v => (splitComma v.toList).map String.ofList
    .ok { a with extensions := a.extensions ++ pieces }

def isContradictory (a : Arguments) : Bool :=
  let both (f g : Flag) : Bool := a.flags.contains f && a.flags.contains g
  (!a.paths.isEmpty && a.root.isSome) || both .apply .check || both .apply .stdout ||
    both .stdout .json || both .quiet .verbose

end Arguments

structure Reading where
  arguments : Arguments := {}
  /-- A place whose values are not complete yet, and those that are there. -/
  waiting : Option (Slot × List String) := none

namespace Reading

def complete (r : Reading) : Except ArgumentStop Arguments :=
  match r.waiting with
  | none => .ok r.arguments
  | some (slot, values) => r.arguments.assign slot values

def raise (r : Reading) (t : Target) : Except ArgumentStop Reading := do
  let a ← r.complete
  match t with
  | .help => .error (.help helpText)
  | .version => .error (.version versionText)
  | .flag f =>
    if a.flags.contains f then .error .conflict
    else .ok ⟨{ a with flags := a.flags ++ [f] }, none⟩
  | .slot s => .ok ⟨a, some (s, [])⟩

/-- Takes a word that starts with two dashes, without them. -/
def long (r : Reading) (word : List Char) : Except ArgumentStop Reading :=
  let name := word.takeWhile (· != '=')
  match Target.ofLong? (String.ofList name), word.drop name.length with
  | none, _ => .error .unknownArgument
  | some t, [] => r.raise t
  | some (.slot s), _ :: value => do
    let a ← r.complete
    let a ← a.assign s [String.ofList value]
    return ⟨a, none⟩
  | some _, _ :: _ => .error .tooManyValues

def short (r : Reading) : List Char → Except ArgumentStop Reading
  | [] => .ok r
  | c :: cs =>
    match Target.ofShort? c with
    | none => .error .unknownArgument
    | some t => do
      let r ← r.raise t
      r.short cs

def positional (r : Reading) (word : String) : Except ArgumentStop Reading :=
  match r.waiting with
  | some (.paths, values) => .ok { r with waiting := some (.paths, values ++ [word]) }
  | _ => do
    let a ← r.complete
    return ⟨a, some (.paths, [word])⟩

def word (r : Reading) (word : String) : Except ArgumentStop Reading :=
  match word.toList, r.waiting with
  | '-' :: '-' :: cs, _ => r.long cs
  | '-' :: c :: cs, _ => r.short (c :: cs)
  | _, some (.paths, _) => r.positional word
  | _, some (slot, []) => .ok { r with waiting := some (slot, [word]) }
  | _, _ => r.positional word

/-- Takes all arguments. After two dashes alone, every word stands for itself. -/
def all (r : Reading) : List String → Except ArgumentStop Reading
  | [] => .ok r
  | w :: ws =>
    if w = "--" then ws.foldlM positional r
    else do
      let r ← r.word w
      r.all ws

end Reading

def Arguments.parse : ArgumentReader := fun words => do
  let r ← Reading.all {} words
  let a ← r.complete
  if a.isContradictory then .error .conflict else .ok a

end Downlevel
