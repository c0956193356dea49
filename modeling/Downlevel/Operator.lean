/-!
# Operators of fold expressions

The binary operators that a fold expression may repeat, their spellings in
source text, and the words that name them in calls of fold helpers.
-/

namespace Downlevel

/-- Operators that also have a compound assignment. -/
inductive Arithmetic where
  | mul | div | rem | add | sub | shl | shr | bitAnd | bitXor | bitOr
  deriving DecidableEq, Repr

/-- A binary operator that may stand in a fold expression. -/
inductive Operator where
  | dotMember | arrowMember
  | arithmetic (a : Arithmetic)
  | threeWay | less | greater | lessEq | greaterEq | equal | notEqual
  | logicalAnd | logicalOr
  | assign
  | compound (a : Arithmetic)
  | comma
  deriving DecidableEq, Repr

namespace Arithmetic

def all : List Arithmetic :=
  [mul, div, rem, add, sub, shl, shr, bitAnd, bitXor, bitOr]

def spelling : Arithmetic → String
  | mul => "*"
  | div => "/"
  | rem => "%"
  | add => "+"
  | sub => "-"
  | shl => "<<"
  | shr => ">>"
  | bitAnd => "&"
  | bitXor => "^"
  | bitOr => "|"

def word : Arithmetic → String
  | mul => "mul"
  | div => "div"
  | rem => "mod"
  | add => "add"
  | sub => "sub"
  | shl => "shl"
  | shr => "shr"
  | bitAnd => "and"
  | bitXor => "xor"
  | bitOr => "or"

end Arithmetic

namespace Operator

def all : List Operator :=
  [dotMember, arrowMember] ++ Arithmetic.all.map arithmetic ++
    [threeWay, less, greater, lessEq, greaterEq, equal, notEqual, logicalAnd, logicalOr, assign] ++
    Arithmetic.all.map compound ++ [comma]

def spelling : Operator → String
  | dotMember => ".*"
  | arrowMember => "->*"
  | arithmetic a => a.spelling
  | threeWay => "<=>"
  | less => "<"
  | greater => ">"
  | lessEq => "<="
  | greaterEq => ">="
  | equal => "=="
  | notEqual => "!="
  | logicalAnd => "&&"
  | logicalOr => "||"
  | assign => "="
  | compound a => a.spelling ++ "="
  | comma => ","

def keyword? : Operator → Option String
  | notEqual => some "not_eq"
  | arithmetic .bitAnd => some "bitand"
  | arithmetic .bitXor => some "xor"
  | arithmetic .bitOr => some "bitor"
  | logicalAnd => some "and"
  | logicalOr => some "or"
  | compound .bitAnd => some "and_eq"
  | compound .bitXor => some "xor_eq"
  | compound .bitOr => some "or_eq"
  | _ => none

def ofToken? (token : String) : Option Operator :=
  all.find? fun o => o.spelling == token || o.keyword? == some token

def isMemberPointer : Operator → Bool
  | dotMember | arrowMember => true
  | _ => false

def foldName? : Operator → Option String
  | dotMember | arrowMember | threeWay => none
  | arithmetic a => some a.word
  | less => some "less"
  | greater => some "greater"
  | lessEq => some "lessequals"
  | greaterEq => some "greaterequals"
  | equal => some "equals"
  | notEqual => some "notequals"
  | logicalAnd => some "land"
  | logicalOr => some "lor"
  | assign => some "assign"
  | compound a => some (a.word ++ "_assign")
  | comma => some "comma"

end Operator

end Downlevel
