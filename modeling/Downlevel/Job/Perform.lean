import Downlevel.Job
import Downlevel.Report

/-!
# Performing a job

All files of a job are read and settled first. After that, changed files are
written back one by one, each only if it lies below one of the job's roots.
-/

namespace Downlevel

inductive ContainmentFault where
  | unresolvedPath (path : Path) (f : SystemFault)
  | unresolvedRoot (root : Path) (f : SystemFault)
  | outside (path root : Path)
  | noRoot (path : Path)
  deriving DecidableEq, Repr

def ContainmentFault.message : ContainmentFault → String
  | unresolvedPath path f => "Failed to resolve path " ++ path.text ++ ": " ++ f.message
  | unresolvedRoot root f => "Failed to resolve root " ++ root.text ++ ": " ++ f.message
  | outside path root =>
    "Path traversal detected: " ++ path.text ++ " is outside of " ++ root.text
  | noRoot path => "No root to write " ++ path.text ++ " into"

namespace FileSystem

variable (fs : FileSystem)

/-- The location of a path, if it is that of `root` or lies below it. -/
def within (path root : Path) : Except ContainmentFault Location :=
  match fs.resolve path with
  | .error f => .error (.unresolvedPath path f)
  | .ok l =>
    match fs.resolve root with
    | .error f => .error (.unresolvedRoot root f)
    | .ok r => if r.isPrefixOf l then .ok l else .error (.outside path root)

/-- The location of a path below the first root that it lies below. If there is none,
the last root tells why. -/
def withinAny (path : Path) : List Path → Except ContainmentFault Location
  | [] => .error (.noRoot path)
  | [root] => fs.within path root
  | root :: roots =>
    match fs.within path root with
    | .ok l => .ok l
    | .error _ => withinAny path roots

variable (parse : String → Node)

/-- Reads a file and settles its text. Nothing is written. There is no report, and no
job, if the text would have to be cut outside its characters. -/
def process (limits : Limits) (path : Path) : Option FileReport :=
  let report := FileReport.new path
  match fs.read path with
  | .error f => some (report.fail f.message none)
  | .ok content =>
    match limits.settle parse content with
    | .ok s => some (report.settle s)
    | .error .badCut => none
    | .error f => some (report.fail f.message (f.offset?.map (Text.placeOf content)))

/-- Writes a changed file back. A refusal is a failure of the file. -/
def writeBack (roots : List Path) (r : FileReport) : FileSystem × FileReport :=
  if r.status = .changed then
    match r.text? with
    | none => (fs, r)
    | some text =>
      match fs.withinAny r.path roots with
      | .ok l => (fs.write l text, { r with written := true })
      | .error f => (fs, r.fail f.message none)
  else (fs, r)

def writeBackAll (fs : FileSystem) (roots : List Path) :
    List FileReport → FileSystem × List FileReport
  | [] => (fs, [])
  | r :: rs =>
    let (fs, r) := fs.writeBack roots r
    let (fs, rs) := fs.writeBackAll roots rs
    (fs, r :: rs)

def perform (job : Job) (paths : List Path) : Option (FileSystem × Report) :=
  match paths.mapM (fs.process parse job.limits) with
  | none => none
  | some reports =>
    if job.apply then
      let (fs, reports) := fs.writeBackAll job.roots reports
      some (fs, ⟨reports⟩)
    else some (fs, ⟨reports⟩)

end FileSystem

end Downlevel
