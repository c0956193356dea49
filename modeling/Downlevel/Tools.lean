import Downlevel.Arguments.Reading
import Downlevel.Command
import Downlevel.Ignore.Walk
import Downlevel.Settings.Toml

/-!
# The tools of the program
-/

namespace Downlevel

/-- The tools that the program comes with. The parser is not among them, and `ownRules` is where
the user's own ignore rules stand. -/
def Tools.standard (parse : String → Node) (ownRules : Option Path) : Tools where
  parse := parse
  walk := ignoreWalk ownRules
  decode := Settings.ofText?
  read := Arguments.parse

end Downlevel
