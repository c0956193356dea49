import Downlevel.Discovery
import Downlevel.Ignore.Scope

/-!
# A walk that heeds ignore files

Files and folders that ignore rules leave out are not shown, and neither is what
lies below such folders. Links are shown and never followed, except that a walk
may start from a link.
-/

namespace Downlevel

namespace FileSystem

/-- The names that lead to a location, from the current folder if it lies below that. -/
def namesHere (fs : FileSystem) (l : Location) : Location :=
  if fs.current.isPrefixOf l then l.drop fs.current.length else l

section

variable (fs : FileSystem) (own : List IgnoreRule) (keep : Visit → Bool)

mutual

/-- All that is shown below `e`, to which `path` leads and which stands at `l`. -/
def walk (scopes : List IgnoreScope) (l : Location) (path : Path) (e : Entry) : List Visit :=
  match e with
  | .folder entries => walkAll (fs.ignoreScope l :: scopes) l path entries
  | _ => []

def walkAll (scopes : List IgnoreScope) (l : Location) (path : Path)
    (entries : List (String × Entry)) : List Visit :=
  match entries with
  | [] => []
  | (name, e) :: rest =>
    let here := l ++ [name]
    let visit : Visit := ⟨path.join name, e.isFolder, some name⟩
    let verdict := IgnoreScope.judge (IgnoreRule.judge own (fs.namesHere here) e.isFolder) scopes
      here e.isFolder
    if verdict = some .ignored ∨ keep visit = false then walkAll scopes l path rest
    else visit :: walk scopes here visit.path e ++ walkAll scopes l path rest

end

end

end FileSystem

/-- Whether the path is a lone dash, which stands for standard input. -/
def Path.isDash (p : Path) : Bool := p.components == [.name "-"]

/-- A walk that heeds ignore files, and the rules in `ownRules`, the user's own. -/
def ignoreWalk (ownRules : Option Path) : Walker := fun fs root keep =>
  if root.isDash then [.ok ⟨⟨false, ["<stdin>"]⟩, false, some "<stdin>"⟩]
  else
    match fs.resolve root with
    | .error f => [.error f]
    | .ok l =>
      let own := ownRules.elim [] fun p => fs.rulesAt (fs.startOf p) p.pieces
      let below := (fs.at? l).elim [] (fs.walk own keep (fs.scopesAbove l) l root)
      .ok (fs.rootVisit root) :: below.map .ok

end Downlevel
