import Downlevel.Toml.Value

/-!
# Numbers, dates and truth values of TOML

Each of these is a run of letters, digits and a few signs, which is read as a
whole.
-/

namespace Downlevel.Toml

/-- Reads digits that may be parted by single underscores, as a list without them. -/
def digits? (isDigit : Char → Bool) : List Char → Option (List Char)
  | [] => none
  | [c] => if isDigit c then some [c] else none
  | c :: '_' :: cs => if isDigit c then (digits? isDigit cs).map (c :: ·) else none
  | c :: cs => if isDigit c then (digits? isDigit cs).map (c :: ·) else none

def isHexDigit (c : Char) : Bool :=
  c.isDigit || ('a' ≤ c && c ≤ 'f') || ('A' ≤ c && c ≤ 'F')

def digitValue (c : Char) : Nat :=
  if c.isDigit then c.toNat - '0'.toNat
  else if 'a' ≤ c then c.toNat - 'a'.toNat + 10
  else c.toNat - 'A'.toNat + 10

def number (base : Nat) (cs : List Char) : Nat :=
  cs.foldl (fun n c => n * base + digitValue c) 0

/-- Splits a sign off the front: whether the number is negative, and the rest. -/
def sign : List Char → Bool × List Char
  | '-' :: cs => (true, cs)
  | '+' :: cs => (false, cs)
  | cs => (false, cs)

/-- Decimal digits of an integer, which start with a zero only if there is no other. -/
def decimal? (cs : List Char) : Option (List Char) :=
  match digits? Char.isDigit cs with
  | some ('0' :: _ :: _) => none
  | ds => ds

/-- Reads an integer, bounded by what 128 bits can hold. -/
def integer? (cs : List Char) : Option Int :=
  let magnitude (base : Nat) (ds : Option (List Char)) : Option Int :=
    ds.map fun ds => (number base ds : Int)
  let i :=
    match cs with
    | '0' :: 'x' :: cs => magnitude 16 (digits? isHexDigit cs)
    | '0' :: 'o' :: cs => magnitude 8 (digits? (fun c => '0' ≤ c && c ≤ '7') cs)
    | '0' :: 'b' :: cs => magnitude 2 (digits? (fun c => c == '0' || c == '1') cs)
    | cs =>
      let (negative, cs) := sign cs
      (magnitude 10 (decimal? cs)).map fun i => if negative then -i else i
  i.filter fun i =>
    -0x80000000000000000000000000000000 ≤ i && i ≤ 0xffffffffffffffffffffffffffffffff

/-- Whether `m * 10 ^ e` is too large for a double: at least halfway from the largest
double to the next power of two. -/
def overflows (m : Nat) (e : Int) : Bool :=
  let bound := Nat.pow 2 1024 - Nat.pow 2 970
  match e with
  | .ofNat n => 0 < m && (400 < n || bound ≤ m * Nat.pow 10 n)
  | .negSucc n =>
    let n := n + 1
    n ≤ (Nat.toDigits 10 m).length && bound * Nat.pow 10 n ≤ m

def isFloat (cs : List Char) : Bool :=
  let (_, cs) := sign cs
  if cs == "inf".toList || cs == "nan".toList then true
  else
    let isExponent (c : Char) : Bool := c == 'e' || c == 'E'
    let whole := cs.takeWhile fun c => c != '.' && !isExponent c
    let rest := cs.drop whole.length
    let fraction := (rest.takeWhile (!isExponent ·)).drop 1
    let exponent := (rest.dropWhile (!isExponent ·)).drop 1
    let hasFraction := rest.head? == some '.'
    let hasExponent := rest.any isExponent
    let (below, exponentDigits) := sign exponent
    match decimal? whole, hasFraction || hasExponent,
      if hasFraction then digits? Char.isDigit fraction else some [],
      if hasExponent then digits? Char.isDigit exponentDigits else some [] with
    | some w, true, some f, some e =>
      let e : Int := if below then -(number 10 e : Int) else number 10 e
      !overflows (number 10 (w ++ f)) (e - f.length)
    | _, _, _, _ => false

/-! ## Dates and times -/

def fixed? (n : Nat) (cs : List Char) : Option (Nat × List Char) :=
  let ds := cs.take n
  if ds.length = n ∧ ds.all Char.isDigit then some (number 10 ds, cs.drop n) else none

def daysIn (year month : Nat) : Nat :=
  if month = 2 then
    if (year % 4 = 0 ∧ year % 100 ≠ 0) ∨ year % 400 = 0 then 29 else 28
  else if month ∈ [4, 6, 9, 11] then 30 else 31

def afterDay? (cs : List Char) : Option (List Char) := do
  let (year, cs) ← fixed? 4 cs
  let '-' :: cs := cs | none
  let (month, cs) ← fixed? 2 cs
  let '-' :: cs := cs | none
  let (day, cs) ← fixed? 2 cs
  if 1 ≤ month ∧ month ≤ 12 ∧ 1 ≤ day ∧ day ≤ daysIn year month then some cs else none

def afterSeconds? (cs : List Char) : Option (List Char) := do
  let (second, cs) ← fixed? 2 cs
  if 60 < second then none
  else
    match cs with
    | '.' :: rest =>
      if (rest.head?.map Char.isDigit).getD false then some (rest.dropWhile Char.isDigit) else none
    | cs => some cs

/-- What is left after a time of day. The seconds may be left out. -/
def afterTime? (cs : List Char) : Option (List Char) := do
  let (hour, cs) ← fixed? 2 cs
  let ':' :: cs := cs | none
  let (minute, cs) ← fixed? 2 cs
  if 23 < hour ∨ 59 < minute then none
  else
    match cs with
    | ':' :: cs => afterSeconds? cs
    | cs => some cs

/-- Whether a text is nothing or the distance of a clock from universal time. -/
def isOffset : List Char → Bool
  | [] | ['Z'] | ['z'] => true
  | c :: cs =>
    (c == '+' || c == '-') &&
      match fixed? 2 cs with
      | some (hour, ':' :: cs) =>
        match fixed? 2 cs with
        | some (minute, []) => hour ≤ 23 && minute ≤ 59
        | _ => false
      | _ => false

def isDate (cs : List Char) : Bool :=
  match afterDay? cs, afterTime? cs with
  | some [], _ => true
  | some (c :: cs), _ =>
    (c == 'T' || c == 't' || c == ' ') && ((afterTime? cs).map isOffset).getD false
  | none, some [] => true
  | none, _ => false

def scalar? (cs : List Char) : Option Value :=
  if cs == "true".toList then some (.boolean true)
  else if cs == "false".toList then some (.boolean false)
  else if isDate cs then some .date
  else
    match integer? cs with
    | some i => some (.integer i)
    | none => if isFloat cs then some .float else none

end Downlevel.Toml
