import Downlevel.Toml.Quoted
import Downlevel.Toml.Scalar

/-!
# TOML documents

Documents follow version 1.1 of the format. A document is a list of
statements: pairs of a key and a value, and headers that open tables. The
statements are read first and put together after that. A document with a single
fault is no document.
-/

namespace Downlevel.Toml

structure Pair where
  path : List String
  key : String
  value : Value

inductive Header where
  | table (path : List String) (key : String)
  /-- Opens a further element of a list of tables. -/
  | element (path : List String) (key : String)

/-! ## Putting statements together -/

inductive Origin where
  /-- By a header of its own. -/
  | header
  /-- On the way of another table's header. -/
  | implied
  /-- By a key of several parts. -/
  | dotted
  deriving DecidableEq

inductive Item where
  | value (v : Value)
  | table (origin : Origin) (entries : List (String × Item))
  | elements (tables : List (List (String × Item)))

abbrev Items := List (String × Item)

def Items.set (items : Items) (key : String) (item : Item) : Items :=
  if (items.lookup key).isSome then
    items.map fun (k, old) => if k = key then (k, item) else (k, old)
  else items ++ [(key, item)]

/-- Adds a value under a key of several parts. The tables on its way must have
come from such keys, the last of them at any rate. No key is given twice. -/
def Items.put (items : Items) (path : List String) (key : String) (v : Value) : Option Items :=
  match path with
  | [] => if (items.lookup key).isSome then none else some (items ++ [(key, .value v)])
  | k :: path =>
    match items.lookup k with
    | none => (Items.put [] path key v).map fun sub => items.set k (.table .dotted sub)
    | some (.value _) => none
    | some (.table origin sub) =>
      if origin = .header ∨ (path = [] ∧ origin ≠ .dotted) then none
      else (Items.put sub path key v).map fun sub => items.set k (.table origin sub)
    | some (.elements tables) =>
      match tables.getLast?, path with
      | some sub, _ :: _ =>
        (Items.put sub path key v).map fun sub => items.set k (.elements (tables.dropLast ++ [sub]))
      | _, _ => none

def Items.putAll (items : Items) (pairs : List Pair) : Option Items :=
  pairs.foldlM (fun items p => items.put p.path p.key p.value) items

/-- Changes what stands at the end of a header's path. Tables that are missing
on the way are implied. -/
def Items.change (items : Items) (path : List String) (key : String)
    (f : Option Item → Option Item) : Option Items :=
  match path with
  | [] => (f (items.lookup key)).map (items.set key)
  | k :: path =>
    match items.lookup k with
    | none => (Items.change [] path key f).map fun sub => items.set k (.table .implied sub)
    | some (.value _) => none
    | some (.table origin sub) =>
      (Items.change sub path key f).map fun sub => items.set k (.table origin sub)
    | some (.elements tables) =>
      match tables.getLast? with
      | some sub =>
        (Items.change sub path key f).map fun sub =>
          items.set k (.elements (tables.dropLast ++ [sub]))
      | none => none

/-- Adds a header with the pairs below it. A table has one header at most. -/
def Items.define (items : Items) (header : Header) (pairs : List Pair) : Option Items :=
  match header with
  | .table path key =>
    items.change path key fun
      | none => (Items.putAll [] pairs).map (.table .header)
      | some (.table .implied sub) => (Items.putAll sub pairs).map (.table .header)
      | _ => none
  | .element path key =>
    items.change path key fun
      | none => (Items.putAll [] pairs).map fun sub => .elements [sub]
      | some (.elements tables) =>
        (Items.putAll [] pairs).map fun sub => .elements (tables ++ [sub])
      | _ => none

mutual

def Item.toValue : Item → Value
  | .value v => v
  | .table _ items => .table (Items.values items)
  | .elements tables => .array (tableValues tables)

def Items.values : List (String × Item) → List (String × Value)
  | [] => []
  | (key, item) :: rest => (key, item.toValue) :: Items.values rest

def tableValues : List (List (String × Item)) → List Value
  | [] => []
  | items :: rest => .table (Items.values items) :: tableValues rest

end

/-! ## Reading statements -/

def skipSpace (cs : List Char) : List Char := cs.dropWhile isSpace

def skipComment? (cs : List Char) : Option (List Char) :=
  match cs with
  | '#' :: rest =>
    let after := rest.dropWhile isPlain
    match after with
    | [] | '\n' :: _ | '\r' :: '\n' :: _ => some after
    | _ => none
  | cs => some cs

def skipLines? : Nat → List Char → Option (List Char)
  | 0, _ => none
  | fuel + 1, cs => do
    let cs ← skipComment? (skipSpace cs)
    match cs with
    | '\n' :: cs => skipLines? fuel cs
    | '\r' :: '\n' :: cs => skipLines? fuel cs
    | cs => some cs

def endLine? (cs : List Char) : Option (List Char) := do
  let cs ← skipComment? (skipSpace cs)
  match cs with
  | [] => some []
  | '\n' :: cs => some cs
  | '\r' :: '\n' :: cs => some cs
  | _ => none

def isBare (c : Char) : Bool := c.isAlphanum || c == '_' || c == '-'

def keyPart? (cs : List Char) : Option (String × List Char) :=
  match cs with
  | '\x22' :: _ | '\x27' :: _ => (line? cs).map fun (s, rest) => (String.ofList s, rest)
  | cs =>
    let name := cs.takeWhile isBare
    if name.isEmpty then none else some (String.ofList name, cs.drop name.length)

/-- How deep brackets and braces of values may nest, and how many parts a key may have. -/
def nestingLimit : Nat := 80

/-- Reads a key of up to `parts` parts: the parts before the last, and the last. -/
def keyParts? : Nat → List Char → Option ((List String × String) × List Char)
  | 0, _ => none
  | parts + 1, cs => do
    let (part, cs) ← keyPart? cs
    match skipSpace cs with
    | '.' :: rest =>
      let ((path, key), rest) ← keyParts? parts (skipSpace rest)
      return ((part :: path, key), rest)
    | rest => return (([], part), rest)

def key? (cs : List Char) : Option ((List String × String) × List Char) :=
  keyParts? nestingLimit cs

def isScalarChar (c : Char) : Bool :=
  c.isAlphanum || c == '_' || c == '+' || c == '-' || c == '.' || c == ':'

/-- Splits off a run of letters, digits and signs. A day and a time may be parted
by one space. -/
def scalarText (cs : List Char) : List Char × List Char :=
  let first := cs.takeWhile isScalarChar
  let rest := cs.drop first.length
  match afterDay? first, rest with
  | some [], ' ' :: d :: more =>
    if d.isDigit then
      let second := (d :: more).takeWhile isScalarChar
      (first ++ ' ' :: second, (d :: more).drop second.length)
    else (first, rest)
  | _, _ => (first, rest)

/-- What is left after the gap between two signs of a pair. Inside braces a gap may
run over several lines. -/
def skipGap? (inBraces : Bool) (cs : List Char) : Option (List Char) :=
  if inBraces then skipLines? (cs.length + 1) cs else some (skipSpace cs)

mutual

def value? : Nat → Nat → List Char → Option (Value × List Char)
  | 0, _, _ => none
  | fuel + 1, depth, cs =>
    match cs with
    | '\x22' :: _ | '\x27' :: _ =>
      (quoted? cs).map fun (s, rest) => (.string (String.ofList s), rest)
    | '[' :: cs =>
      if nestingLimit ≤ depth then none
      else (elements? fuel (depth + 1) cs).map fun (vs, rest) => (.array vs, rest)
    | '\x7b' :: cs =>
      if nestingLimit ≤ depth then none
      else do
        let (pairs, rest) ← pairs? fuel (depth + 1) cs
        let items ← Items.putAll [] pairs
        return (.table (Items.values items), rest)
    | cs =>
      let (text, rest) := scalarText cs
      (scalar? text).map (·, rest)

def elements? : Nat → Nat → List Char → Option (List Value × List Char)
  | 0, _, _ => none
  | fuel + 1, depth, cs => do
    match ← skipLines? (cs.length + 1) cs with
    | ']' :: cs => return ([], cs)
    | cs =>
      let (v, cs) ← value? fuel depth cs
      match ← skipLines? (cs.length + 1) cs with
      | ',' :: cs =>
        let (vs, cs) ← elements? fuel depth cs
        return (v :: vs, cs)
      | ']' :: cs => return ([v], cs)
      | _ => none

def pairs? : Nat → Nat → List Char → Option (List Pair × List Char)
  | 0, _, _ => none
  | fuel + 1, depth, cs => do
    match ← skipGap? true cs with
    | '\x7d' :: cs => return ([], cs)
    | cs =>
      let (p, cs) ← pair? fuel depth cs
      match ← skipGap? true cs with
      | ',' :: cs =>
        let (ps, cs) ← pairs? fuel depth cs
        return (p :: ps, cs)
      | '\x7d' :: cs => return ([p], cs)
      | _ => none

def pair? : Nat → Nat → List Char → Option (Pair × List Char)
  | 0, _, _ => none
  | fuel + 1, depth, cs => do
    let inBraces := 0 < depth
    let ((path, key), cs) ← key? cs
    let '=' :: cs ← skipGap? inBraces cs | none
    let (v, cs) ← value? fuel depth (← skipGap? inBraces cs)
    return (⟨path, key, v⟩, cs)

end

def header? (cs : List Char) : Option (Header × List Char) :=
  match cs with
  | '[' :: '[' :: cs => do
    let ((path, key), cs) ← key? (skipSpace cs)
    let ']' :: ']' :: cs := cs | none
    return (.element path key, cs)
  | '[' :: cs => do
    let ((path, key), cs) ← key? (skipSpace cs)
    let ']' :: cs := cs | none
    return (.table path key, cs)
  | _ => none

/-- A header, or none for the front of a document, and the pairs below it. -/
abbrev Section := List Pair × List (Header × List Pair)

def statements? : Nat → List Char → Option Section
  | 0, _ => none
  | fuel + 1, cs => do
    match ← skipLines? (cs.length + 1) cs with
    | [] => return ([], [])
    | '[' :: cs =>
      let (header, cs) ← header? ('[' :: cs)
      let (pairs, later) ← statements? fuel (← endLine? cs)
      return ([], (header, pairs) :: later)
    | cs =>
      let (p, rest) ← pair? (cs.length + 3) 0 cs
      let (pairs, later) ← statements? fuel (← endLine? rest)
      return (p :: pairs, later)

/-- The entries of a document. A byte order mark at the front is passed over. -/
def parse? (text : String) : Option (List (String × Value)) := do
  let cs :=
    match text.toList with
    | '\ufeff' :: cs => cs
    | cs => cs
  let (front, headers) ← statements? (cs.length + 1) cs
  let items ← Items.putAll [] front
  let items ← headers.foldlM (fun items (header, pairs) => items.define header pairs) items
  return Items.values items

end Downlevel.Toml
