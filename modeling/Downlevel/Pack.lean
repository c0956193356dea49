import Downlevel.Document

/-!
# Parameter packs

A name is taken for a parameter pack of a document if it directly follows an
ellipsis anywhere in it. An expression holds a pack if it mentions such a name
where the pack is not expanded yet.
-/

namespace Downlevel

/-- The nodes of a list that directly follow an ellipsis and name something. -/
def packTokens : List Node → List Node
  | [] => []
  | [_] => []
  | a :: b :: rest =>
    if a.kind == .ellipsis && b.kind.isName then b :: packTokens (b :: rest)
    else packTokens (b :: rest)

namespace Document

def packs (d : Document) : Except Fault (List String) := do
  let tokens := d.root.tokens.filter (!·.isComment)
  let names ← (packTokens tokens).mapM fun t => d.cut t.start t.stop
  return names.eraseDups

mutual

/-- Whether the node mentions one of `packs` outside of everything that
expands it. The number of a pack's elements expands nothing, and mentions
nothing either. -/
def holdsPack (d : Document) (packs : List String) : Node → Except Fault Bool
  | .mk kind start stop _ _ [] =>
    if kind.isName then do
      let name ← d.cut start stop
      return packs.contains name
    else .ok false
  | .mk kind _ _ _ _ (c :: cs) =>
    if kind.expandsPacks || kind == .sizeofExpression && (c :: cs).any (·.kind == .ellipsis) then
      .ok false
    else anyHoldsPack d packs (c :: cs)

def anyHoldsPack (d : Document) (packs : List String) : List Node → Except Fault Bool
  | [] => .ok false
  | n :: ns =>
    match holdsPack d packs n with
    | .ok true => .ok true
    | .ok false => anyHoldsPack d packs ns
    | .error f => .error f

end

end Document

end Downlevel
