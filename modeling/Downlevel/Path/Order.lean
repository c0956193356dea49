import Downlevel.Path

/-!
# The order of paths

Paths are ordered component by component, and names by their characters. What is
the beginning of another comes first.
-/

namespace Downlevel

def charsLe : List Char → List Char → Bool
  | [], _ => true
  | _ :: _, [] => false
  | a :: as, b :: bs => if a = b then charsLe as bs else a.toNat < b.toNat

/-- The top comes first, then the two marks for folders, then the names. -/
def Component.rank : Component → Nat
  | top => 0
  | here => 1
  | up => 2
  | name _ => 3

def Component.le : Component → Component → Bool
  | name a, name b => charsLe a.toList b.toList
  | a, b => a.rank ≤ b.rank

def componentsLe : List Component → List Component → Bool
  | [], _ => true
  | _ :: _, [] => false
  | a :: as, b :: bs => if a = b then componentsLe as bs else a.le b

def Path.le (p q : Path) : Bool := componentsLe p.components q.components

end Downlevel
