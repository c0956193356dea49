/-!
# Quoted strings of TOML

Strings in double quotes know escapes, strings in single quotes do not. Three
quotes start a string that may run over several lines.
-/

namespace Downlevel.Toml

def isPlain (c : Char) : Bool :=
  c == '\t' || (0x20 ≤ c.toNat && c.toNat != 0x7F)

def isSpace (c : Char) : Bool := c == ' ' || c == '\t'

def hexValue? (c : Char) : Option Nat :=
  if c.isDigit then some (c.toNat - '0'.toNat)
  else if 'a' ≤ c ∧ c ≤ 'f' then some (c.toNat - 'a'.toNat + 10)
  else if 'A' ≤ c ∧ c ≤ 'F' then some (c.toNat - 'A'.toNat + 10)
  else none

def charOf? (ds : List Char) : Option Char := do
  let values ← ds.mapM hexValue?
  let n := values.foldl (fun n d => n * 16 + d) 0
  if n.isValidChar then some (Char.ofNat n) else none

def escape? : List Char → Option (Char × List Char)
  | 'b' :: cs => some ('\x08', cs)
  | 'e' :: cs => some ('\x1b', cs)
  | 't' :: cs => some ('\t', cs)
  | 'n' :: cs => some ('\n', cs)
  | 'f' :: cs => some ('\x0c', cs)
  | 'r' :: cs => some ('\r', cs)
  | '\x22' :: cs => some ('\x22', cs)
  | '\\' :: cs => some ('\\', cs)
  | 'x' :: a :: b :: cs => (charOf? [a, b]).map (·, cs)
  | 'u' :: a :: b :: c :: d :: cs => (charOf? [a, b, c, d]).map (·, cs)
  | 'U' :: a :: b :: c :: d :: e :: f :: g :: h :: cs =>
    (charOf? [a, b, c, d, e, f, g, h]).map (·, cs)
  | _ => none

theorem length_escape?_lt {cs rest : List Char} {c : Char} (h : escape? cs = some (c, rest)) :
    rest.length < cs.length := by
  unfold escape? at h
  split at h <;> simp_all only [Option.some.injEq, Prod.mk.injEq, Option.map_eq_some_iff,
    List.length_cons, reduceCtorEq]
  all_goals grind

def basic? (cs : List Char) : Option (List Char × List Char) :=
  match cs with
  | [] => none
  | '\x22' :: cs => some ([], cs)
  | '\\' :: cs =>
    match h : escape? cs with
    | some (c, rest) =>
      have := length_escape?_lt h
      (basic? rest).map fun (s, rest) => (c :: s, rest)
    | none => none
  | c :: cs => if isPlain c then (basic? cs).map fun (s, rest) => (c :: s, rest) else none
termination_by cs.length

def literal? : List Char → Option (List Char × List Char)
  | [] => none
  | '\x27' :: cs => some ([], cs)
  | c :: cs => if isPlain c then (literal? cs).map fun (s, rest) => (c :: s, rest) else none

def skipBlank : List Char → List Char
  | [] => []
  | '\r' :: '\n' :: cs => skipBlank cs
  | c :: cs => if isSpace c || c == '\n' then skipBlank cs else c :: cs

theorem length_skipBlank_le (cs : List Char) : (skipBlank cs).length ≤ cs.length := by
  fun_induction skipBlank cs with
  | case1 => exact Nat.le_refl _
  | case2 cs ih => simp only [List.length_cons]; omega
  | case3 c cs _ _ ih => simp only [List.length_cons]; omega
  | case4 => exact Nat.le_refl _

def afterBreak? (cs : List Char) : Option (List Char) :=
  match cs.dropWhile isSpace with
  | '\n' :: rest | '\r' :: '\n' :: rest => some (skipBlank rest)
  | _ => none

theorem length_afterBreak?_lt {cs rest : List Char} (h : afterBreak? cs = some rest) :
    rest.length < cs.length := by
  have hs : (cs.dropWhile isSpace).length ≤ cs.length := (List.dropWhile_sublist _).length_le
  unfold afterBreak? at h
  split at h
  · rename_i r hr
    injection h with h
    subst h
    have := length_skipBlank_le r
    rw [hr, List.length_cons] at hs
    omega
  · rename_i r hr
    injection h with h
    subst h
    have := length_skipBlank_le r
    rw [hr, List.length_cons, List.length_cons] at hs
    omega
  · simp at h

/-- Reads a string of several lines after its first three quotes. Up to two
quotes may stand before the three that end it. Line ends are kept as they are
written. Where escapes count, a backslash at the end of a line joins the lines. -/
def lines? (quote : Char) (escapes : Bool) (cs : List Char) : Option (List Char × List Char) :=
  match cs with
  | [] => none
  | c :: rest =>
    if [quote, quote, quote].isPrefixOf (c :: rest) then
      let extra := (rest.drop 2).takeWhile (· == quote) |>.take 2
      some (extra, rest.drop (2 + extra.length))
    else if c = '\\' ∧ escapes then
      match h : afterBreak? rest with
      | some joined =>
        have := length_afterBreak?_lt h
        lines? quote escapes joined
      | none =>
        match h : escape? rest with
        | some (c, rest) =>
          have := length_escape?_lt h
          (lines? quote escapes rest).map fun (s, rest) => (c :: s, rest)
        | none => none
    else if c = '\n' ∨ isPlain c ∨ (c = '\r' ∧ rest.head? = some '\n') then
      (lines? quote escapes rest).map fun (s, rest) => (c :: s, rest)
    else none
termination_by cs.length
decreasing_by all_goals (simp_all only [List.length_cons]; omega)

def dropBreak : List Char → List Char
  | '\n' :: cs => cs
  | '\r' :: '\n' :: cs => cs
  | cs => cs

def line? : List Char → Option (List Char × List Char)
  | '\x22' :: cs => basic? cs
  | '\x27' :: cs => literal? cs
  | _ => none

def quoted? : List Char → Option (List Char × List Char)
  | '\x22' :: '\x22' :: '\x22' :: cs => lines? '\x22' true (dropBreak cs)
  | '\x27' :: '\x27' :: '\x27' :: cs => lines? '\x27' false (dropBreak cs)
  | cs => line? cs

end Downlevel.Toml
