import Downlevel.Path
import Downlevel.Settle

/-!
# Jobs

A job is what a call asks for: what becomes of the files, and what is shown.
-/

namespace Downlevel

structure Job where
  /-- Write changed files back. -/
  apply : Bool := false
  /-- Changes count as a failure of the whole run. -/
  check : Bool := false
  stdout : Bool := false
  json : Bool := false
  verbose : Bool := false
  quiet : Bool := false
  limits : Limits := {}
  /-- Files are written only below one of these. -/
  roots : List Path := []

end Downlevel
