/-!
# JSON text

Values are laid out over several lines, two spaces deeper on every level.
Empty lists and records stay on one line.
-/

namespace Downlevel

inductive JsonValue where
  | text (s : String)
  | number (n : Nat)
  | truth (b : Bool)
  | list (values : List JsonValue)
  | record (fields : List (String × JsonValue))

namespace JsonValue

def escape (c : Char) : String :=
  match c with
  | '\x22' => "\\\""
  | '\\' => "\\\\"
  | '\n' => "\\n"
  | '\r' => "\\r"
  | '\t' => "\\t"
  | '\x08' => "\\b"
  | '\x0c' => "\\f"
  | c =>
    if c.toNat < 0x20 then
      "\\u00" ++ String.ofList [Nat.digitChar (c.toNat / 16), Nat.digitChar (c.toNat % 16)]
    else c.toString

def quote (s : String) : String :=
  "\"" ++ String.join (s.toList.map escape) ++ "\""

def newline (depth : Nat) : String :=
  "\n" ++ String.ofList (List.replicate (2 * depth) ' ')

def enclose (depth : Nat) (left right : String) (lines : List String) : String :=
  if lines.isEmpty then left ++ right
  else
    left ++ ",".intercalate (lines.map (newline (depth + 1) ++ ·)) ++ newline depth ++ right

mutual

def pretty (depth : Nat) : JsonValue → String
  | .text s => quote s
  | .number n => toString n
  | .truth b => if b then "true" else "false"
  | .list values => enclose depth "[" "]" (prettyAll (depth + 1) values)
  | .record fields => enclose depth "\x7b" "\x7d" (prettyFields (depth + 1) fields)

def prettyAll (depth : Nat) : List JsonValue → List String
  | [] => []
  | v :: vs => v.pretty depth :: prettyAll depth vs

def prettyFields (depth : Nat) : List (String × JsonValue) → List String
  | [] => []
  | (key, v) :: rest => (quote key ++ ": " ++ v.pretty depth) :: prettyFields depth rest

end

end JsonValue

end Downlevel
