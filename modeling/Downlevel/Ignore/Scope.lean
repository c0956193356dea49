import Downlevel.FileSystem.Resolve
import Downlevel.Ignore.Rule

/-!
# Scopes of ignore files

Each folder may hold ignore files, whose rules reach everything below it.
Files called `.ignore` always count. The rules of git count only inside a
repository, of git or of Jujutsu, and only up to the folder in which the
repository starts. Last come the rules that a user has for all repositories.
-/

namespace Downlevel

structure IgnoreScope where
  /-- The number of names in the folder's location. -/
  depth : Nat
  plain : List IgnoreRule
  git : List IgnoreRule
  exclude : List IgnoreRule
  isRepository : Bool

namespace FileSystem

def content? (fs : FileSystem) (l : Location) (pieces : List String) : Option ByteArray :=
  match fs.follow linkLimit l pieces with
  | .ok l =>
    match fs.at? l with
    | some (.file content) => some content
    | _ => none
  | .error _ => none

def rulesAt (fs : FileSystem) (l : Location) (pieces : List String) : List IgnoreRule :=
  match fs.content? l pieces with
  | some content => IgnoreRule.ofContent content
  | none => []

def firstLine? (fs : FileSystem) (l : Location) (pieces : List String) : Option String :=
  (fs.content? l pieces).bind fun content => (linesOf content).head?

/-- A relative path starts in the current folder, whatever file it stands in. -/
def startOf (fs : FileSystem) (p : Path) : Location := if p.rooted then [] else fs.current

/-- The rules that a repository keeps for itself. Where `.git` is a file, it leads
to a worktree's folder and that one to the folder shared by all worktrees. -/
def excludeRules (fs : FileSystem) (l : Location) : List IgnoreRule :=
  let shared := ["info", "exclude"]
  match fs.firstLine? l [".git"] with
  | none => fs.rulesAt l (".git" :: shared)
  | some line =>
    match line.toList with
    | 'g' :: 'i' :: 't' :: 'd' :: 'i' :: 'r' :: ':' :: ' ' :: rest =>
      let worktree := Path.ofText (String.ofList rest)
      match fs.firstLine? (fs.startOf worktree) (worktree.pieces ++ ["commondir"]) with
      | none => []
      | some line =>
        let common := Path.ofText line
        if line.startsWith "." then
          fs.rulesAt (fs.startOf worktree) (worktree.pieces ++ common.pieces ++ shared)
        else fs.rulesAt (fs.startOf common) (common.pieces ++ shared)
    | _ => []

def ignoreScope (fs : FileSystem) (l : Location) : IgnoreScope where
  depth := l.length
  plain := fs.rulesAt l [".ignore"]
  git := fs.rulesAt l [".gitignore"]
  exclude := fs.excludeRules l
  isRepository := [".git", ".jj"].any fun name => (fs.follow linkLimit l [name]).isOk

def scopesAbove (fs : FileSystem) (l : Location) : List IgnoreScope :=
  ((List.range l.length).map fun n => fs.ignoreScope (l.take n)).reverse

end FileSystem

namespace IgnoreScope

def upToRepository : List IgnoreScope → List IgnoreScope
  | [] => []
  | s :: rest => if s.isRepository then [s] else s :: upToRepository rest

/-- What the scopes around a location say of it, innermost first. Inside a repository, the verdict
of the user's own rules counts where all others are silent. -/
def judge (own : Option Verdict) (scopes : List IgnoreScope) (l : Location) (isFolder : Bool) :
    Option Verdict :=
  let ask (rules : IgnoreScope → List IgnoreRule) (scopes : List IgnoreScope) :=
    scopes.findSome? fun s => IgnoreRule.judge (rules s) (l.drop s.depth) isFolder
  let inside := scopes.any (·.isRepository)
  let repository := if inside then upToRepository scopes else []
  ask plain scopes <|> ask git repository <|> ask exclude repository <|>
    if inside then own else none

end IgnoreScope

end Downlevel
