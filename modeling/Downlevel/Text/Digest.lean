/-!
# Digests

The digest of a text names it in a table: the 64-bit FNV-1a hash of its bytes,
written with sixteen hexadecimal digits.
-/

namespace Downlevel.Text

def absorb (hash : UInt64) (byte : UInt8) : UInt64 :=
  (hash ^^^ byte.toUInt64) * 0x100000001b3

def hash (s : String) : UInt64 :=
  s.toUTF8.toList.foldl absorb 0xcbf29ce484222325

def digest (s : String) : String :=
  let digits := Nat.toDigits 16 (hash s).toNat
  String.ofList (List.replicate (16 - digits.length) '0' ++ digits)

end Downlevel.Text
