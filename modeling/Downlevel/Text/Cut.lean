/-!
# Cutting a text at byte positions

Positions count the bytes of a text's UTF-8 form. A text can be cut at its two
ends and between two characters; a cut anywhere else has no answer.
-/

namespace Downlevel.Text

/-- Whether byte position `n` is an end of `s` or lies between two of its characters. -/
def isBoundary (s : String) (n : Nat) : Bool :=
  String.Pos.Raw.isValid s ⟨n⟩

def slice? (s : String) (start stop : Nat) : Option String :=
  match s.pos? ⟨start⟩, s.pos? ⟨stop⟩ with
  | some p, some q => if p ≤ q then some (s.extract p q) else none
  | _, _ => none

def replace? (s : String) (start stop : Nat) (new : String) : Option String :=
  match slice? s 0 start, slice? s start stop, slice? s stop s.utf8ByteSize with
  | some before, some _, some after => some (before ++ new ++ after)
  | _, _, _ => none

end Downlevel.Text
