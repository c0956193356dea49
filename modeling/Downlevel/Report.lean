import Downlevel.FileSystem.Resolve
import Downlevel.Path.Display
import Downlevel.Settle
import Downlevel.Text.Lines

/-!
# Reports

What became of each file, and the totals over all of them.
-/

namespace Downlevel

inductive Status where
  | unchanged | changed | failed
  deriving DecidableEq, Repr

structure FileReport where
  /-- The path as messages show it. -/
  file : String
  status : Status
  passes : Nat
  /-- The number of edits over all passes. -/
  edits : Nat
  /-- Whether the new text was put back into the file. -/
  written : Bool
  error? : Option String
  line? : Option Nat
  column? : Option Nat
  text? : Option String
  path : Path
  deriving DecidableEq, Repr

namespace FileReport

def new (path : Path) : FileReport where
  file := path.display
  status := .unchanged
  passes := 0
  edits := 0
  written := false
  error? := none
  line? := none
  column? := none
  text? := none
  path := path

/-- Reports a failure. What was found out before is taken back. -/
def fail (r : FileReport) (message : String) (place : Option Text.Place) : FileReport :=
  { r with
    status := .failed
    error? := some message
    line? := place.map (·.line)
    column? := place.map (·.column)
    passes := 0
    edits := 0
    text? := none }

def settle (r : FileReport) (s : Settled) : FileReport :=
  { r with
    status := if s.changed then .changed else .unchanged
    passes := s.passes
    edits := s.totalEdits
    text? := some s.text }

end FileReport

structure Summary where
  files : Nat := 0
  changed : Nat := 0
  unchanged : Nat := 0
  failed : Nat := 0
  edits : Nat := 0
  deriving DecidableEq, Repr

def Summary.add (s : Summary) (r : FileReport) : Summary :=
  let s := { s with edits := s.edits + r.edits }
  match r.status with
  | .unchanged => { s with unchanged := s.unchanged + 1 }
  | .changed => { s with changed := s.changed + 1 }
  | .failed => { s with failed := s.failed + 1 }

structure Report where
  files : List FileReport
  deriving DecidableEq, Repr

def Report.summary (r : Report) : Summary :=
  r.files.foldl Summary.add { files := r.files.length }

end Downlevel
