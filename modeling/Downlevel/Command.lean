import Downlevel.Arguments
import Downlevel.Discovery
import Downlevel.Job.Perform
import Downlevel.Report.Render
import Downlevel.Settings

/-!
# The command

A call of the command, from its arguments to its output, its exit code and
the file system that it leaves.
-/

namespace Downlevel

/-- What the command relies on: a parser for sources, a walk through folders, and readers for
settings and for the words of a call. -/
structure Tools where
  parse : String → Node
  walk : Walker
  decode : String → Option Settings
  read : ArgumentReader

structure CommandResult where
  code : Nat
  output : String
  fs : FileSystem

namespace Arguments

def has (a : Arguments) (f : Flag) : Bool := a.flags.contains f

def targets (a : Arguments) : List Path :=
  match a.root, a.paths with
  | some root, _ => [root]
  | none, [] => [Path.ofText "."]
  | none, paths => paths

/-- What to look for. Folders of the settings and of the arguments count together;
extensions of the arguments take the place of those of the settings. -/
def search (a : Arguments) (s : Settings) : Search where
  exclude := s.exclude.getD [] ++ a.exclude
  forced := s.forced.getD [] ++ a.forced
  extensions :=
    if a.extensions.isEmpty then s.extensions.getD defaultExtensions
    else a.extensions.map fun e => String.ofList (e.toList.dropWhile (· == '.'))

def limits (a : Arguments) (s : Settings) : Limits where
  maxPasses := (a.maxPasses <|> s.maxPasses).getD 16
  allowErrors := a.has .allowErrors || s.allowErrors.getD false

def job (a : Arguments) (s : Settings) : Job where
  apply := a.has .apply
  check := a.has .check
  stdout := a.has .stdout
  json := a.has .json
  verbose := a.has .verbose
  quiet := a.has .quiet
  limits := a.limits s
  roots := a.targets

end Arguments

namespace FileSystem

variable (fs : FileSystem)

/-- The files that a target stands for: those below a folder, or itself. -/
def expand (walk : Walker) (search : Search) (target : Path) : List Path :=
  if fs.isFolder target then (fs.collect walk search target).1 else [target]

/-- Two paths with the same key lead to the same file. -/
def fileKey (p : Path) : Location ⊕ List Component :=
  match fs.resolve p with
  | .ok l => .inl l
  | .error _ => .inr p.components

/-- Keeps of every file the first path that leads to it, unless `seen` has it. -/
def distinct (seen : List (Location ⊕ List Component)) : List Path → List Path
  | [] => []
  | p :: ps =>
    if seen.contains (fs.fileKey p) then distinct seen ps
    else p :: distinct (fs.fileKey p :: seen) ps

def gather (expand : Path → List Path) (targets : List Path) : List Path :=
  fs.distinct [] (targets.flatMap expand)

end FileSystem

def exitCode (job : Job) (s : Summary) : Nat :=
  if 0 < s.failed ∨ (job.check ∧ 0 < s.changed) then 1 else 0

def Arguments.run (a : Arguments) (tools : Tools) (fs : FileSystem) : Option CommandResult :=
  if a.targets.all fs.exists? then
    let settings := (a.targets.head?.map fun t => (fs.settingsFor tools.decode t).1).getD {}
    let search := a.search settings
    let job := a.job settings
    let files := fs.gather (fs.expand tools.walk search) a.targets
    let isHuman := !job.json && !job.stdout && !job.quiet
    let heading := if job.verbose ∧ isHuman then exclusionList search.exclude else ""
    match fs.perform tools.parse job files with
    | none => none
    | some (fs, report) =>
      some ⟨exitCode job report.summary, heading ++ report.render job, fs⟩
  else some ⟨2, "", fs⟩

/-- Runs the command. There is no result if the text of a file would have to be cut
outside its characters. -/
def runCommand (tools : Tools) (fs : FileSystem) (words : List String) : Option CommandResult :=
  match tools.read words with
  | .ok a => a.run tools fs
  | .error stop =>
    match stop.text? with
    | some text => some ⟨0, text, fs⟩
    | none => some ⟨2, "", fs⟩

end Downlevel
