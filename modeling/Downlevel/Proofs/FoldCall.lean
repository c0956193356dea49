import Downlevel.Proofs.Pass

/-!
# The calls that folds become

A fold reads `( ... op E )`, `( E op ... )` or `( L op ... op R )`, comments and
nodes that the parser made up aside. Whatever its operands look like, it becomes
one call, from its opening parenthesis through its closing one, in which each
operand stands as it was written, without the comments behind it.
-/

namespace Downlevel

/-- What a fold holds: one operand, or two of which one holds the pack. -/
inductive FoldShape where
  | unary (direction : Direction) (operand : Node)
  | binary (direction : Direction) (left right : Node)

namespace Document

variable {d : Document} {packs : List String} {n opening closing : Node}

/-- The text of a node as it stands, through the end of its last token that is no comment. -/
def verbatim? (d : Document) (n : Node) : Option String :=
  n.lastToken?.bind fun t => Text.slice? d.text n.start t.stop

def Spells (d : Document) (token : Node) (operator : Operator) : Prop :=
  ∃ spelled, Text.slice? d.text token.start token.stop = some spelled ∧
    Operator.ofToken? spelled = some operator

/-- The parts of `n` read as a fold. The direction of a binary one is taken as decided. -/
inductive Reads (d : Document) (packs : List String) (n opening closing : Node)
    (operator : Operator) : FoldShape → Prop
  | left {dots op operand : Node} (hparts : n.parts = [opening, dots, op, operand, closing])
      (hdots : dots.kind = .ellipsis) (hop : d.Spells op operator) :
      Reads d packs n opening closing operator (.unary .left operand)
  | right {dots op operand : Node} (hparts : n.parts = [opening, operand, op, dots, closing])
      (hdots : dots.kind = .ellipsis) (hoperand : operand.kind ≠ .ellipsis)
      (hop : d.Spells op operator) :
      Reads d packs n opening closing operator (.unary .right operand)
  | binary {left op dots op' right : Node} {direction : Direction}
      (hparts : n.parts = [opening, left, op, dots, op', right, closing])
      (hdots : dots.kind = .ellipsis) (hop : d.Spells op operator) (hop' : d.Spells op' operator)
      (hdirection : d.direction packs n left right = .ok direction) :
      Reads d packs n opening closing operator (.binary direction left right)

end Document

namespace FoldShape

/-- The call that the fold becomes, with its operands as they stand. -/
def call? (d : Document) (name : String) : FoldShape → Option String
  | unary .left operand => do
    let e ← d.verbatim? operand
    return "fold_expr_" ++ name ++ "_left(" ++ e ++ "...)"
  | unary .right operand => do
    let e ← d.verbatim? operand
    return "fold_expr_" ++ name ++ "_right(" ++ e ++ "...)"
  | binary .left left right => do
    let l ← d.verbatim? left
    let r ← d.verbatim? right
    return "fold_expr_" ++ name ++ "_left(" ++ l ++ ", " ++ r ++ "...)"
  | binary .right left right => do
    let l ← d.verbatim? left
    let r ← d.verbatim? right
    return "fold_expr_" ++ name ++ "_right(" ++ l ++ "..., " ++ r ++ ")"

def fold (span : Span) (operator : Operator) : FoldShape → Fold
  | unary direction operand => ⟨span, operator, direction, operand.span, none⟩
  | binary .left left right => ⟨span, operator, .left, right.span, some left.span⟩
  | binary .right left right => ⟨span, operator, .right, left.span, some right.span⟩

def operands : FoldShape → List Node
  | unary _ operand => [operand]
  | binary _ left right => [left, right]

section Call

variable {d : Document} {operand left right : Node} {e l r : String} (name : String)

-- The literals of the two sides are cut at different places.

theorem call?_unary (he : d.verbatim? operand = some e) (direction : Direction) :
    (unary direction operand).call? d name = some (foldCall name direction e none) := by
  cases direction with
  | left =>
    rw [call?, he]
    change some ("fold_expr_" ++ name ++ ("_" ++ "left" ++ "(") ++ e ++ ("..." ++ ")")) =
      some ("fold_expr_" ++ name ++ "_" ++ "left" ++ "(" ++ (e ++ "...") ++ ")")
    simp only [String.append_assoc]
  | right =>
    rw [call?, he]
    change some ("fold_expr_" ++ name ++ ("_" ++ "right" ++ "(") ++ e ++ ("..." ++ ")")) =
      some ("fold_expr_" ++ name ++ "_" ++ "right" ++ "(" ++ (e ++ "...") ++ ")")
    simp only [String.append_assoc]

theorem call?_binary_left (hl : d.verbatim? left = some l) (hr : d.verbatim? right = some r) :
    (binary .left left right).call? d name = some (foldCall name .left r (some l)) := by
  rw [call?, hl, hr]
  change some ("fold_expr_" ++ name ++ ("_" ++ "left" ++ "(") ++ l ++ ", " ++ r ++
      ("..." ++ ")")) =
    some ("fold_expr_" ++ name ++ "_" ++ "left" ++ "(" ++ (l ++ ", " ++ r ++ "...") ++ ")")
  simp only [String.append_assoc]

theorem call?_binary_right (hl : d.verbatim? left = some l) (hr : d.verbatim? right = some r) :
    (binary .right left right).call? d name = some (foldCall name .right l (some r)) := by
  rw [call?, hl, hr]
  change some ("fold_expr_" ++ name ++ ("_" ++ "right" ++ "(") ++ l ++ ("..." ++ ", ") ++ r ++
      ")") =
    some ("fold_expr_" ++ name ++ "_" ++ "right" ++ "(" ++ (l ++ "..." ++ ", " ++ r) ++ ")")
  simp only [String.append_assoc]

end Call

end FoldShape

theorem Operator.isMemberPointer_of_foldName? {operator : Operator} {name : String}
    (h : operator.foldName? = some name) : operator.isMemberPointer = false := by
  cases operator with
  | dotMember => cases h
  | arrowMember => cases h
  | _ => rfl

namespace Document

variable {d : Document} {packs : List String} {n opening closing : Node}

theorem operatorAt_of_spells {token : Node} {operator : Operator}
    (h : d.Spells token operator) : d.operatorAt token = .ok operator := by
  obtain ⟨spelled, hcut, hop⟩ := h
  simp only [operatorAt, cut, hcut, bind, Except.bind, hop]

/-- A fold with at least three parts between its parentheses is read off these. -/
theorem fold_eq_foldOf (inner : List Node) (hparts : n.parts = opening :: (inner ++ [closing]))
    (hlen : 3 ≤ inner.length) (hopening : opening.kind = .openParen)
    (hclosing : closing.kind = .closeParen) :
    d.fold packs n = d.foldOf packs n ⟨opening.start, closing.start⟩ inner := by
  have hhead : n.parts.head? = some opening := by rw [hparts, List.head?_cons]
  have hlast : n.parts.getLast? = some closing := by
    rw [hparts, ← List.cons_append, List.getLast?_concat]
  have hinner : n.parts.tail.dropLast = inner := by
    rw [hparts, List.tail_cons, List.dropLast_concat]
  have hshape : ¬ (n.parts.length < 5 ∨ opening.kind ≠ .openParen ∨
      closing.kind ≠ .closeParen) := by
    rw [hparts, hopening, hclosing, List.length_cons, List.length_append, List.length_singleton]
    simp only [ne_eq, not_true_eq_false, or_false]
    omega
  simp only [fold, hhead, hlast, if_neg hshape, hinner]

theorem Reads.fold_eq {operator : Operator} {shape : FoldShape}
    (h : d.Reads packs n opening closing operator shape) (hopening : opening.kind = .openParen)
    (hclosing : closing.kind = .closeParen) :
    d.fold packs n = .ok (shape.fold ⟨opening.start, closing.start⟩ operator) := by
  cases h with
  | @left dots op operand hparts hdots hop =>
    rw [fold_eq_foldOf [dots, op, operand] hparts (by simp) hopening hclosing, foldOf]
    simp only [hdots, operatorAt_of_spells hop]
    rfl
  | @right dots op operand hparts hdots hoperand hop =>
    rw [fold_eq_foldOf [operand, op, dots] hparts (by simp) hopening hclosing, foldOf,
      if_neg (by simpa using hoperand)]
    simp only [hdots, operatorAt_of_spells hop]
    rfl
  | @binary left op dots op' right direction hparts hdots hop hop' hdirection =>
    rw [fold_eq_foldOf [left, op, dots, op', right] hparts (by simp) hopening hclosing, foldOf]
    simp only [hdots, operatorAt_of_spells hop, operatorAt_of_spells hop', hdirection, bind,
      Except.bind, ne_eq, not_true_eq_false, if_false]
    cases direction with
    | left => rfl
    | right => rfl

theorem Reads.mem_parts {operator : Operator} {shape : FoldShape}
    (h : d.Reads packs n opening closing operator shape) :
    n.parts.head? = some opening ∧ closing ∈ n.parts ∧ ∀ c ∈ shape.operands, c ∈ n.parts := by
  cases h with
  | left hparts => simp [hparts, FoldShape.operands]
  | right hparts => simp [hparts, FoldShape.operands]
  | binary hparts => simp [hparts, FoldShape.operands]

theorem lowerFold_eq {f : Fold} {name pattern : String} {init : Option String} {stop : Nat}
    (hname : f.operator.foldName? = some name) (hpattern : d.read f.pattern = .ok pattern)
    (hinit : f.init.mapM d.read = .ok init) (hstop : d.resolveEnd f.span.last = .ok stop) :
    d.lowerFold f = .ok (.edited ⟨f.span.first, stop, foldCall name f.direction pattern init,
      some ("fold over `" ++ f.operator.spelling ++ "`")⟩) := by
  simp only [lowerFold, hpattern, hname, hinit, hstop, bind, Except.bind,
    Operator.isMemberPointer_of_foldName? hname]
  rfl

/-- If its operands are read verbatim, a fold becomes the call for its shape. -/
theorem lowerFold_shape {operator : Operator} {shape : FoldShape} {name : String} {span : Span}
    {stop : Nat} (hname : operator.foldName? = some name)
    (hread : ∀ c ∈ shape.operands,
      ∃ text, d.verbatim? c = some text ∧ d.read c.span = .ok text)
    (hstop : d.resolveEnd span.last = .ok stop) :
    ∃ text, shape.call? d name = some text ∧
      d.lowerFold (shape.fold span operator) = .ok (.edited ⟨span.first, stop, text,
        some ("fold over `" ++ operator.spelling ++ "`")⟩) := by
  cases shape with
  | unary direction operand =>
    obtain ⟨e, he, hread⟩ := hread operand (by simp [FoldShape.operands])
    exact ⟨_, FoldShape.call?_unary name he direction, lowerFold_eq hname hread rfl hstop⟩
  | binary direction left right =>
    obtain ⟨l, hl, hleft⟩ := hread left (by simp [FoldShape.operands])
    obtain ⟨r, hr, hright⟩ := hread right (by simp [FoldShape.operands])
    cases direction with
    | left =>
      refine ⟨_, FoldShape.call?_binary_left name hl hr, lowerFold_eq hname hright ?_ hstop⟩
      change some <$> d.read left.span = _
      rw [hleft]
      rfl
    | right =>
      refine ⟨_, FoldShape.call?_binary_right name hl hr, lowerFold_eq hname hleft ?_ hstop⟩
      change some <$> d.read right.span = _
      rw [hright]
      rfl

/-- Every part of a construct can be read, and is read verbatim. -/
theorem WellFormedAt.exists_verbatim (h : d.WellFormedAt n.kind)
    (hn : n ∈ Node.preorders d.root.children) {c : Node} (hc : c ∈ n.parts) :
    ∃ text, d.verbatim? c = some text ∧ d.read c.span = .ok text := by
  obtain ⟨t, hlast, hspans⟩ := h.exists_spans_part hn hc
  obtain ⟨text, htext, _⟩ :=
    Text.exists_slice? hspans.first_isBoundary hspans.stop_isBoundary hspans.first_le_stop
  refine ⟨text, ?_, ?_⟩
  · rw [verbatim?, hlast]
    exact htext
  · rw [hspans.read_eq, cut, htext]

/-- Whatever a fold and its operands look like, it becomes the call of the helper for its
operator and its direction, from its opening parenthesis through its closing one. -/
theorem construct_lower_fold (h : d.WellFormedAt .foldExpression)
    (hn : n ∈ Node.preorders d.root.children) (hkind : n.kind = .foldExpression)
    (hopening : opening.kind = .openParen) (hclosing : closing.kind = .closeParen)
    {operator : Operator} {shape : FoldShape} {name : String}
    (hreads : d.Reads packs n opening closing operator shape)
    (hname : operator.foldName? = some name) :
    ∃ text, shape.call? d name = some text ∧
      (d.construct packs n >>= d.lower) = .ok (.edited ⟨opening.start, closing.stop, text,
        some ("fold over `" ++ operator.spelling ++ "`")⟩) := by
  have hfold := hreads.fold_eq hopening hclosing
  have hlower : (d.construct packs n >>= d.lower) =
      d.lowerFold (shape.fold ⟨opening.start, closing.start⟩ operator) := by
    rw [construct, hkind, hfold]
    rfl
  rw [hlower]
  have hat : d.WellFormedAt n.kind := hkind ▸ h
  obtain ⟨hhead, hlast, hoperands⟩ := hreads.mem_parts
  exact lowerFold_shape hname (fun c hc => hat.exists_verbatim hn (hoperands c hc))
    (hat.spans_parts hn hhead hlast hclosing).resolveEnd_eq

/-- A binary fold whose first operand ends in a comment, and whose operator is spelled in two
ways. -/
def aliasedFold : Node :=
  ⟨.foldExpression, 0, 19, true, false,
    [.token .openParen 0 1,
      ⟨.other "call_expression", 1, 7, true, false, [.token .identifier 1 3, .token .comment 3 7]⟩,
      .token (.other "|") 7 8, .token .ellipsis 8 11, .token (.other "bitor") 11 16,
      .token .numberLiteral 17 18, .token .closeParen 18 19]⟩

def aliased : Document where
  text := "(é/**/|...bitor 0)"
  root := ⟨.other "translation_unit", 0, 19, true, false, [aliasedFold]⟩

theorem construct_lower_fold_aliased :
    aliased.WellFormedAt .foldExpression ∧ aliased.packs = .ok [] ∧
      (aliased.construct [] aliasedFold >>= aliased.lower) =
        .ok (.edited ⟨0, 19, "fold_expr_or_right(é..., 0)", some "fold over `|`"⟩) := by
  have hwell : aliased.WellFormedAt .foldExpression := by decide
  have hreads : aliased.Reads [] aliasedFold (.token .openParen 0 1) (.token .closeParen 18 19)
      (.arithmetic .bitOr) (.binary .right _ _) :=
    .binary rfl rfl ⟨"|", by rfl, by rfl⟩ ⟨"bitor", by rfl, by rfl⟩ (by rfl)
  obtain ⟨text, hcall, hlower⟩ := construct_lower_fold hwell
    (Node.mem_preorders_head aliasedFold []) rfl rfl rfl hreads rfl
  have htext : some text = some "fold_expr_or_right(é..., 0)" := hcall.symm.trans (by rfl)
  rw [Option.some.inj htext] at hlower
  exact ⟨hwell, by rfl, hlower⟩

end Document

end Downlevel
