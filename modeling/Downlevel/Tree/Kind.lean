/-!
# Kinds of syntax nodes

The node kinds of the C++ grammar that matter here are constructors of their
own; every other kind keeps only its name.
-/

namespace Downlevel

inductive Kind where
  | comment | error
  | openParen | closeParen | comma | ellipsis
  | identifier | typeIdentifier
  | foldExpression | staticAssertion
  | packExpansion | sizeofExpression | parenthesized
  | numberLiteral | stringLiteral | rawStringLiteral | charLiteral | concatenatedString
  | trueLiteral | falseLiteral | nullLiteral
  | other (name : String)
  deriving DecidableEq, Repr, Inhabited

namespace Kind

def name : Kind → String
  | comment => "comment"
  | error => "ERROR"
  | openParen => "("
  | closeParen => ")"
  | comma => ","
  | ellipsis => "..."
  | identifier => "identifier"
  | typeIdentifier => "type_identifier"
  | foldExpression => "fold_expression"
  | staticAssertion => "static_assert_declaration"
  | packExpansion => "parameter_pack_expansion"
  | sizeofExpression => "sizeof_expression"
  | parenthesized => "parenthesized_expression"
  | numberLiteral => "number_literal"
  | stringLiteral => "string_literal"
  | rawStringLiteral => "raw_string_literal"
  | charLiteral => "char_literal"
  | concatenatedString => "concatenated_string"
  | trueLiteral => "true"
  | falseLiteral => "false"
  | nullLiteral => "nullptr"
  | other name => name

def known : List Kind :=
  [comment, error, openParen, closeParen, comma, ellipsis, identifier, typeIdentifier,
    foldExpression, staticAssertion, packExpansion, sizeofExpression, parenthesized,
    numberLiteral, stringLiteral, rawStringLiteral, charLiteral, concatenatedString,
    trueLiteral, falseLiteral, nullLiteral]

def ofName (name : String) : Kind :=
  (known.find? (·.name == name)).getD (other name)

/-- Kinds of tokens that name something and so can name a parameter pack. -/
def isName : Kind → Bool
  | identifier | typeIdentifier => true
  | _ => false

def expandsPacks : Kind → Bool
  | packExpansion | foldExpression => true
  | _ => false

def isLiteral : Kind → Bool
  | numberLiteral | stringLiteral | rawStringLiteral | charLiteral | concatenatedString
  | trueLiteral | falseLiteral | nullLiteral => true
  | _ => false

end Kind

end Downlevel
