import Downlevel.Settings
import Downlevel.Toml.Document

/-!
# Settings in TOML

Settings stand in a section of a TOML document. Unknown keys are passed over; a
value of another type than the one wanted makes the file malformed.
-/

namespace Downlevel

def sectionName : String := "cxx-backport"

namespace Settings

open Toml (Value)

def count? : Value → Option Nat
  | .integer i => if 0 ≤ i ∧ i ≤ 0xffffffffffffffff then some i.toNat else none
  | _ => none

def boolean? : Value → Option Bool
  | .boolean b => some b
  | _ => none

def string? : Value → Option String
  | .string s => some s
  | _ => none

def strings? : Value → Option (List String)
  | .array vs => vs.mapM string?
  | _ => none

/-- Reads a value that may be missing, but not of another type. -/
def field? {α : Type} (read : Value → Option α) : Option Value → Option (Option α)
  | none => some none
  | some v => (read v).map some

def ofFields? (maxPasses exclude forced extensions allowErrors : Option Value) :
    Option Settings := do
  return {
    maxPasses := ← field? count? maxPasses
    exclude := ← field? strings? exclude
    forced := ← field? strings? forced
    extensions := ← field? strings? extensions
    allowErrors := ← field? boolean? allowErrors }

/-- Reads a section. A list gives the settings by their order, and then none may be missing.
A date in the place of the section sets nothing. -/
def ofSection? : Value → Option Settings
  | .table es => ofFields? (es.lookup "max_passes") (es.lookup "exclude_folders")
      (es.lookup "include_folders") (es.lookup "extensions") (es.lookup "allow_parse_errors")
  | .array (a :: b :: c :: d :: e :: _) => ofFields? (some a) (some b) (some c) (some d) (some e)
  | .date => some {}
  | _ => none

/-- Reads the text of a settings file. A file without the section sets nothing. -/
def ofText? (text : String) : Option Settings :=
  match Toml.parse? text with
  | none => none
  | some entries =>
    match entries.lookup sectionName with
    | none => some {}
    | some v => ofSection? v

end Settings

end Downlevel
