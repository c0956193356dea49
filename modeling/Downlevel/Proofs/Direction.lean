import Downlevel.Proofs.Comments
import Downlevel.Proofs.FoldCall

/-!
# The direction of binary folds

A binary fold `( L op ... op R )` does not say which operand is expanded. The
names of packs are those that directly follow an ellipsis somewhere in the
document, and an operand mentions a pack if a path leads from it down to such a
name through no node that expands or counts packs itself. The operand that alone
mentions a pack is the pattern; failing that, the one that alone is a literal is
the other operand; failing that too, the fold is refused.
-/

namespace Downlevel

namespace Node

/-- `path` leads from the node down to `leaf`, both included. -/
inductive Descends : Node → List Node → Node → Prop
  | here (n : Node) : Descends n [n] n
  | into {n c leaf : Node} {path : List Node} (hc : c ∈ n.children)
      (h : Descends c path leaf) : Descends n (n :: path) leaf

/-- The packs that are mentioned below the node are expanded or counted there. -/
def Expands (n : Node) : Prop :=
  n.kind = .packExpansion ∨ n.kind = .foldExpression ∨
    n.kind = .sizeofExpression ∧ ∃ c ∈ n.children, c.kind = .ellipsis

theorem expands_iff {n : Node} :
    n.Expands ↔ (n.kind.expandsPacks ||
      n.kind == .sizeofExpression && n.children.any (·.kind == .ellipsis)) = true := by
  have hkind : n.kind.expandsPacks = true ↔ n.kind = .packExpansion ∨ n.kind = .foldExpression := by
    cases n.kind <;> simp [Kind.expandsPacks]
  simp only [Expands, Bool.or_eq_true, Bool.and_eq_true, hkind, beq_iff_eq, List.any_eq_true,
    or_assoc]

theorem not_expands_of_isName {n : Node} (h : n.kind.isName = true) : ¬ n.Expands := by
  rintro (hkind | hkind | ⟨hkind, _⟩)
  all_goals
    rw [hkind] at h
    cases h

/-- A literal, under any number of parentheses around one named part each. -/
inductive IsLiteral : Node → Prop
  | bare {n : Node} (h : n.kind.isLiteral = true) : IsLiteral n
  | parenthesized {n inner : Node} (h : n.kind = .parenthesized)
      (hinner : n.parts.filter (·.named) = [inner]) (hliteral : IsLiteral inner) : IsLiteral n

theorem filter_named_parts (n : Node) :
    n.parts.filter (·.named) = n.children.filter isOperand := by
  rw [parts, List.filter_filter]
  apply List.filter_congr
  intro c _
  simp only [isOperand, Bool.and_assoc]

theorem isPlainLiteral_iff_of_children {n : Node}
    (h : isLonePlainLiteral n.children = true ↔
      ∃ inner, n.children.filter isOperand = [inner] ∧ inner.IsLiteral) :
    n.isPlainLiteral = true ↔ n.IsLiteral := by
  rw [isPlainLiteral_eq, Bool.or_eq_true, Bool.and_eq_true, h, beq_iff_eq]
  constructor
  · rintro (hkind | ⟨hkind, inner, hinner, hliteral⟩)
    · exact .bare hkind
    · exact .parenthesized hkind (n.filter_named_parts.trans hinner) hliteral
  · intro hn
    cases hn with
    | bare hkind => exact Or.inl hkind
    | @parenthesized _ inner hkind hinner hliteral =>
      exact Or.inr ⟨hkind, inner, n.filter_named_parts.symm.trans hinner, hliteral⟩

theorem isLonePlainLiteral_iff (ns : List Node) :
    isLonePlainLiteral ns = true ↔
      ∃ inner, ns.filter isOperand = [inner] ∧ inner.IsLiteral := by
  induction ns using forest_induction with
  | nil => simp [isLonePlainLiteral]
  | cons n ns below behind =>
    rw [isLonePlainLiteral]
    -- The first operand must be the literal, with no other operand behind it.
    by_cases hn : n.isOperand = true
    · rw [if_pos hn, List.filter_cons_of_pos hn, Bool.and_eq_true,
        isPlainLiteral_iff_of_children below]
      constructor
      · rintro ⟨hliteral, hnone⟩
        have hnil : ns.filter isOperand = [] := by
          rw [List.filter_eq_nil_iff]
          simpa using hnone
        exact ⟨n, by rw [hnil], hliteral⟩
      · rintro ⟨inner, hinner, hliteral⟩
        obtain ⟨rfl, hnil⟩ := List.cons.inj hinner
        refine ⟨hliteral, ?_⟩
        rw [List.filter_eq_nil_iff] at hnil
        simpa using hnil
    · rw [if_neg hn, List.filter_cons_of_neg hn, behind]

theorem isPlainLiteral_iff {n : Node} : n.isPlainLiteral = true ↔ n.IsLiteral :=
  isPlainLiteral_iff_of_children (isLonePlainLiteral_iff n.children)

end Node

/-! ### Names of packs -/

def FollowsEllipsis (ns : List Node) (t : Node) : Prop :=
  ∃ before dots after, ns = before ++ dots :: t :: after ∧ dots.kind = .ellipsis

theorem followsEllipsis_cons_cons {a b t : Node} {rest : List Node} :
    FollowsEllipsis (a :: b :: rest) t ↔
      (a.kind = .ellipsis ∧ t = b) ∨ FollowsEllipsis (b :: rest) t := by
  constructor
  · rintro ⟨before, dots, after, hsplit, hdots⟩
    cases before with
    | nil =>
      obtain ⟨rfl, htail⟩ := List.cons.inj hsplit
      exact Or.inl ⟨hdots, (List.cons.inj htail).1.symm⟩
    | cons c before => exact Or.inr ⟨before, dots, after, (List.cons.inj hsplit).2, hdots⟩
  · rintro (⟨hdots, rfl⟩ | ⟨before, dots, after, hsplit, hdots⟩)
    · exact ⟨[], a, rest, rfl, hdots⟩
    · exact ⟨a :: before, dots, after, by rw [hsplit]; rfl, hdots⟩

theorem not_followsEllipsis_of_length_le {ns : List Node} {t : Node} (h : ns.length ≤ 1) :
    ¬ FollowsEllipsis ns t := by
  rintro ⟨before, dots, after, rfl, _⟩
  simp only [List.length_append, List.length_cons] at h
  omega

theorem mem_packTokens_iff {ns : List Node} {t : Node} :
    t ∈ packTokens ns ↔ t.kind.isName = true ∧ FollowsEllipsis ns t := by
  fun_induction packTokens ns with
  | case1 => simp [not_followsEllipsis_of_length_le]
  | case2 n => simp [not_followsEllipsis_of_length_le]
  | case3 a b rest hpack ih =>
    obtain ⟨hdots, hname⟩ := Bool.and_eq_true_iff.1 hpack
    rw [List.mem_cons, ih, followsEllipsis_cons_cons]
    constructor
    · rintro (rfl | ⟨ht, hfollows⟩)
      · exact ⟨hname, Or.inl ⟨eq_of_beq hdots, rfl⟩⟩
      · exact ⟨ht, Or.inr hfollows⟩
    · rintro ⟨ht, ⟨_, rfl⟩ | hfollows⟩
      · exact Or.inl rfl
      · exact Or.inr ⟨ht, hfollows⟩
  | case4 a b rest hpack ih =>
    -- What follows an ellipsis here is no name.
    rw [ih, followsEllipsis_cons_cons]
    constructor
    · rintro ⟨ht, hfollows⟩
      exact ⟨ht, Or.inr hfollows⟩
    · rintro ⟨ht, ⟨hdots, rfl⟩ | hfollows⟩
      · exact absurd (by simp [hdots, ht]) hpack
      · exact ⟨ht, hfollows⟩

theorem exists_mapM_eq_ok {α β : Type} {f : α → Except Fault β} {xs : List α}
    (h : ∀ x ∈ xs, ∃ y, f x = .ok y) :
    ∃ ys, xs.mapM f = .ok ys ∧ ∀ y, y ∈ ys ↔ ∃ x ∈ xs, f x = .ok y := by
  induction xs with
  | nil => exact ⟨[], rfl, by simp⟩
  | cons x xs ih =>
    obtain ⟨y, hy⟩ := h x List.mem_cons_self
    obtain ⟨ys, hys, hmem⟩ := ih fun x' hx' => h x' (List.mem_cons_of_mem x hx')
    refine ⟨y :: ys, by rw [List.mapM_cons, hy, hys]; rfl, fun z => ?_⟩
    rw [List.mem_cons, hmem, List.exists_mem_cons_iff, hy, Except.ok.injEq, eq_comm]

namespace Document

open Node (preorders)

variable {d : Document} {packs : List String}

/-- The text of a node as it stands, comments included. -/
def textOf? (d : Document) (n : Node) : Option String := Text.slice? d.text n.start n.stop

/-- The text of every node can be cut out, wherever the nodes lie. -/
def Sliceable (d : Document) : Prop :=
  ∀ n ∈ d.root.preorder, (d.textOf? n).isSome = true

instance (d : Document) : Decidable d.Sliceable :=
  inferInstanceAs (Decidable (∀ n ∈ d.root.preorder, (d.textOf? n).isSome = true))

/-- The name directly follows an ellipsis somewhere in the document, comments aside. -/
def NamesPack (d : Document) (name : String) : Prop :=
  ∃ t, FollowsEllipsis (d.root.tokens.filter (!·.isComment)) t ∧ t.kind.isName = true ∧
    d.textOf? t = some name

/-- A path leads from the node to the name of a pack, through no node that expands it. -/
def MentionsPack (d : Document) (n : Node) : Prop :=
  ∃ path leaf name, n.Descends path leaf ∧ leaf.isToken = true ∧ leaf.kind.isName = true ∧
    d.textOf? leaf = some name ∧ d.NamesPack name ∧ ∀ m ∈ path, ¬ m.Expands

theorem cut_eq_ok_iff {n : Node} {text : String} :
    d.cut n.start n.stop = .ok text ↔ d.textOf? n = some text := by
  unfold cut textOf?
  cases Text.slice? d.text n.start n.stop <;> simp

theorem Sliceable.exists_textOf (h : d.Sliceable) {n : Node} (hn : n ∈ d.root.preorder) :
    ∃ text, d.textOf? n = some text :=
  Option.isSome_iff_exists.1 (h n hn)

theorem Sliceable.exists_packs (h : d.Sliceable) :
    ∃ packs, d.packs = .ok packs ∧ ∀ name, name ∈ packs ↔ d.NamesPack name := by
  have hcut : ∀ t ∈ packTokens (d.root.tokens.filter (!·.isComment)),
      ∃ name, d.cut t.start t.stop = .ok name := by
    intro t ht
    have htoken := (List.mem_filter.1 (packTokens_subset _ ht)).1
    obtain ⟨name, hname⟩ := h.exists_textOf (Node.mem_tokens_iff.1 htoken).1
    exact ⟨name, cut_eq_ok_iff.2 hname⟩
  obtain ⟨names, hnames, hmem⟩ := exists_mapM_eq_ok hcut
  refine ⟨names.eraseDups, by simp only [packs, hnames]; rfl, fun name => ?_⟩
  rw [List.mem_eraseDups, hmem]
  constructor
  · rintro ⟨t, ht, hname⟩
    obtain ⟨hkind, hfollows⟩ := mem_packTokens_iff.1 ht
    exact ⟨t, hfollows, hkind, cut_eq_ok_iff.1 hname⟩
  · rintro ⟨t, hfollows, hkind, hname⟩
    exact ⟨t, mem_packTokens_iff.2 ⟨hkind, hfollows⟩, cut_eq_ok_iff.2 hname⟩

/-! ### Operands -/

theorem mentionsPack_of_isToken {n : Node} (h : n.isToken = true) :
    d.MentionsPack n ↔
      n.kind.isName = true ∧ ∃ name, d.textOf? n = some name ∧ d.NamesPack name := by
  constructor
  · rintro ⟨path, leaf, name, hpath, _, hname, htext, hpack, _⟩
    cases hpath with
    | here => exact ⟨hname, name, htext, hpack⟩
    | into hc =>
      rw [Node.isToken_iff.1 h] at hc
      cases hc
  · rintro ⟨hname, name, htext, hpack⟩
    refine ⟨[n], n, name, .here n, h, hname, htext, hpack, fun m hm => ?_⟩
    rw [List.mem_singleton.1 hm]
    exact Node.not_expands_of_isName hname

theorem mentionsPack_of_inner {n : Node} (h : n.isToken = false) :
    d.MentionsPack n ↔ ¬ n.Expands ∧ ∃ c ∈ n.children, d.MentionsPack c := by
  constructor
  · rintro ⟨path, leaf, name, hpath, hleaf, hrest⟩
    cases hpath with
    | here =>
      rw [h] at hleaf
      cases hleaf
    | @into _ c _ path hc hpath =>
      obtain ⟨hname, htext, hpack, hexpands⟩ := hrest
      exact ⟨hexpands n List.mem_cons_self, c, hc, path, leaf, name, hpath, hleaf, hname, htext,
        hpack, fun m hm => hexpands m (List.mem_cons_of_mem n hm)⟩
  · rintro ⟨hn, c, hc, path, leaf, name, hpath, hleaf, hname, htext, hpack, hexpands⟩
    refine ⟨n :: path, leaf, name, .into hc hpath, hleaf, hname, htext, hpack, fun m hm => ?_⟩
    rcases List.mem_cons.1 hm with rfl | hm
    · exact hn
    · exact hexpands m hm

/-- The computation ends well and answers whether `P` holds. -/
def Answers (x : Except Fault Bool) (P : Prop) : Prop := ∃ b, x = .ok b ∧ (b = true ↔ P)

theorem Answers.iff {x : Except Fault Bool} {P : Prop} {b : Bool} (h : Answers x P)
    (hx : x = .ok b) : b = true ↔ P := by
  obtain ⟨b', hb', hP⟩ := h
  rw [hx] at hb'
  cases hb'
  exact hP

section Search

variable (h : d.Sliceable) (hpacks : ∀ name, name ∈ packs ↔ d.NamesPack name)

include h hpacks

theorem Sliceable.answers_holdsPack_of_children {n : Node} (hn : n ∈ d.root.preorder)
    (hchildren : Answers (d.anyHoldsPack packs n.children)
      (∃ c ∈ n.children, d.MentionsPack c)) :
    Answers (d.holdsPack packs n) (d.MentionsPack n) := by
  by_cases htoken : n.isToken = true
  · rw [holdsPack_of_isToken htoken, mentionsPack_of_isToken htoken]
    by_cases hname : n.kind.isName = true
    · obtain ⟨text, htext⟩ := h.exists_textOf hn
      refine ⟨packs.contains text, by rw [if_pos hname, cut_eq_ok_iff.2 htext]; rfl, ?_⟩
      rw [List.contains_iff_mem, hpacks]
      simp [hname, htext]
    · exact ⟨false, if_neg hname, by simp [hname]⟩
  · have hinner : n.isToken = false := by simpa using htoken
    rw [holdsPack_of_inner hinner, mentionsPack_of_inner hinner]
    by_cases hexpands : n.Expands
    · exact ⟨false, if_pos (Node.expands_iff.1 hexpands), by simp [hexpands]⟩
    · rw [if_neg fun hpruned => hexpands (Node.expands_iff.2 hpruned)]
      simpa [hexpands] using hchildren

theorem Sliceable.answers_anyHoldsPack {ns : List Node}
    (hns : ∀ n ∈ preorders ns, n ∈ d.root.preorder) :
    Answers (d.anyHoldsPack packs ns) (∃ n ∈ ns, d.MentionsPack n) := by
  induction ns using Node.forest_induction with
  | nil => exact ⟨false, rfl, by simp⟩
  | cons n ns below behind =>
    obtain ⟨b, hb, hmentions⟩ := h.answers_holdsPack_of_children hpacks
      (hns n (Node.mem_preorders_head n ns))
      (below fun m hm => hns m (Node.mem_preorders_cons_of_below hm))
    rw [anyHoldsPack, hb, List.exists_mem_cons_iff, ← hmentions]
    -- The nodes behind one that holds a pack are not searched.
    cases b with
    | true => exact ⟨true, rfl, by simp⟩
    | false => simpa using behind fun m hm => hns m (Node.mem_preorders_cons_of_behind hm)

/-- The search that stops at what expands packs finds out whether a pack is mentioned. -/
theorem Sliceable.answers_holdsPack {n : Node} (hn : n ∈ d.root.preorder) :
    Answers (d.holdsPack packs n) (d.MentionsPack n) := by
  refine h.answers_holdsPack_of_children hpacks hn (h.answers_anyHoldsPack hpacks fun m hm => ?_)
  rw [← Node.preorders_singleton] at hn ⊢
  exact Node.mem_preorders_of_below hn hm

end Search

/-! ### Directions -/

theorem direction_eq {n left right : Node} {inLeft inRight : Bool} {whole : String}
    (hleft : d.holdsPack packs left = .ok inLeft) (hright : d.holdsPack packs right = .ok inRight)
    (hwhole : d.textOf? n = some whole) :
    d.direction packs n left right =
      if inLeft ≠ inRight then .ok (if inLeft then .right else .left)
      else if left.isPlainLiteral ≠ right.isPlainLiteral then
        .ok (if right.isPlainLiteral then .right else .left)
      else .error (.ambiguous n.start whole) := by
  simp only [direction, hleft, hright, cut_eq_ok_iff.2 hwhole, bind, Except.bind]
  cases inLeft <;> cases inRight <;> cases left.isPlainLiteral <;> cases right.isPlainLiteral <;>
    rfl

def binaryFold (opening closing : Node) (operator : Operator) (direction : Direction)
    (pattern init : Node) : Construct :=
  .fold ⟨⟨opening.start, closing.start⟩, operator, direction, pattern.span, some init.span⟩

section Binary

variable {n opening left op dots op' right closing : Node} {operator : Operator}
  (hkind : n.kind = .foldExpression)
  (hparts : n.parts = [opening, left, op, dots, op', right, closing])
  (hopening : opening.kind = .openParen) (hclosing : closing.kind = .closeParen)
  (hdots : dots.kind = .ellipsis) (hop : d.Spells op operator) (hop' : d.Spells op' operator)

include hkind hparts hopening hclosing hdots hop hop'

theorem construct_eq_of_direction (packs : List String) :
    d.construct packs n = (d.direction packs n left right).map fun direction =>
      .fold ((FoldShape.binary direction left right).fold ⟨opening.start, closing.start⟩
        operator) := by
  rw [construct, hkind]
  change (d.fold packs n).map Construct.fold = _
  rw [fold_eq_foldOf [left, op, dots, op', right] hparts (by simp) hopening hclosing, foldOf]
  simp only [hdots, operatorAt_of_spells hop, operatorAt_of_spells hop', bind, Except.bind, ne_eq,
    not_true_eq_false, if_false]
  cases d.direction packs n left right with
  | error f => rfl
  | ok direction => cases direction <;> rfl

/-- The direction of a binary fold, wherever it stands and whatever its operands are. The operand
that alone mentions a pack is the pattern; if both or neither does, the one that alone is a
literal is the other operand; and if that does not decide either, the fold is refused as it
stands. -/
theorem construct_binary_fold (h : d.Sliceable) (hn : n ∈ d.root.preorder) :
    ∃ packs, d.packs = .ok packs ∧
      (d.MentionsPack left → ¬ d.MentionsPack right →
        d.construct packs n = .ok (binaryFold opening closing operator .right left right)) ∧
      (¬ d.MentionsPack left → d.MentionsPack right →
        d.construct packs n = .ok (binaryFold opening closing operator .left right left)) ∧
      ((d.MentionsPack left ↔ d.MentionsPack right) →
        (¬ left.IsLiteral → right.IsLiteral →
          d.construct packs n = .ok (binaryFold opening closing operator .right left right)) ∧
        (left.IsLiteral → ¬ right.IsLiteral →
          d.construct packs n = .ok (binaryFold opening closing operator .left right left)) ∧
        ((left.IsLiteral ↔ right.IsLiteral) → ∃ whole, d.textOf? n = some whole ∧
          d.construct packs n = .error (.ambiguous n.start whole))) := by
  obtain ⟨packs, hpacks, hnames⟩ := h.exists_packs
  have hmem : ∀ c ∈ n.parts, c ∈ d.root.preorder := by
    intro c hc
    rw [← Node.preorders_singleton] at hn ⊢
    exact Node.mem_preorders_of_child hn (List.mem_filter.1 hc).1
  obtain ⟨inLeft, hleft, hinLeft⟩ := h.answers_holdsPack hnames (hmem left (by simp [hparts]))
  obtain ⟨inRight, hright, hinRight⟩ := h.answers_holdsPack hnames (hmem right (by simp [hparts]))
  obtain ⟨whole, hwhole⟩ := h.exists_textOf hn
  have hconstruct := construct_eq_of_direction hkind hparts hopening hclosing hdots hop hop' packs
  rw [direction_eq hleft hright hwhole] at hconstruct
  refine ⟨packs, hpacks, ?_⟩
  rw [← hinLeft, ← hinRight, ← Node.isPlainLiteral_iff, ← Node.isPlainLiteral_iff, hconstruct]
  simp only [Bool.not_eq_true]
  refine ⟨?_, ?_, fun hpack => ?_⟩
  · intro hl hr
    rw [hl, hr]
    rfl
  · intro hl hr
    rw [hl, hr]
    rfl
  · have hsame : inLeft = inRight := Bool.eq_iff_iff.2 hpack
    rw [if_neg (by simp [hsame])]
    refine ⟨?_, ?_, fun hliteral => ⟨whole, hwhole, ?_⟩⟩
    · intro hl hr
      rw [hl, hr]
      rfl
    · intro hl hr
      rw [hl, hr]
      rfl
    · rw [if_neg (by simpa using Bool.eq_iff_iff.2 hliteral)]
      rfl

end Binary

def countedOperand : Node :=
  ⟨.sizeofExpression, 6, 18, true, false,
    [.token (.other "sizeof") 6 12, .token .ellipsis 12 15, .token .openParen 15 16,
      .token .identifier 16 17, .token .closeParen 17 18]⟩

def literalOperand : Node :=
  ⟨.parenthesized, 23, 26, true, false,
    [.token .openParen 23 24, ⟨.numberLiteral, 24, 25, true, false, []⟩,
      .token .closeParen 25 26]⟩

/-- Neither operand mentions the pack, but the second one is a literal. -/
def countedFold : Node :=
  ⟨.foldExpression, 5, 27, true, false,
    [.token .openParen 5 6, countedOperand, .token (.other "+") 18 19, .token .ellipsis 19 22,
      .token (.other "+") 22 23, literalOperand, .token .closeParen 26 27]⟩

def expandedOperand : Node :=
  ⟨.other "call_expression", 29, 36, true, false,
    [.token .identifier 29 30, .token .openParen 30 31,
      ⟨.packExpansion, 31, 35, true, false, [.token .identifier 31 32, .token .ellipsis 32 35]⟩,
      .token .closeParen 35 36]⟩

/-- Both operands name the pack, but the first one expands it. -/
def expandedFold : Node :=
  ⟨.foldExpression, 28, 43, true, false,
    [.token .openParen 28 29, expandedOperand, .token (.other "+") 36 37, .token .ellipsis 37 40,
      .token (.other "+") 40 41, .token .identifier 41 42, .token .closeParen 42 43]⟩

def packed : Document where
  text := "...a;(sizeof...(a)+...+(0));(g(a...)+...+a)"
  root := ⟨.other "translation_unit", 0, 43, true, false,
    [.token .ellipsis 0 3, .token .identifier 3 4, .token (.other ";") 4 5, countedFold,
      .token (.other ";") 27 28, expandedFold]⟩

theorem construct_binary_fold_packed :
    packed.Sliceable ∧ packed.packs = .ok ["a"] ∧
      packed.construct ["a"] countedFold = .ok (.fold ⟨⟨5, 26⟩, .arithmetic .add, .right,
        ⟨6, 17⟩, some ⟨23, 25⟩⟩) ∧
      packed.construct ["a"] expandedFold = .ok (.fold ⟨⟨28, 42⟩, .arithmetic .add, .left,
        ⟨41, 41⟩, some ⟨29, 35⟩⟩) := by
  have hsliceable : packed.Sliceable := by decide
  have hpacks : packed.packs = .ok ["a"] := by rfl
  obtain ⟨names, hnames, hmem⟩ := hsliceable.exists_packs
  obtain rfl : ["a"] = names := Except.ok.inj (hpacks.symm.trans hnames)
  have hcounted : countedFold ∈ preorders packed.root.children :=
    Node.mem_preorders_of_mem (by simp [packed])
  have hexpanded : expandedFold ∈ preorders packed.root.children :=
    Node.mem_preorders_of_mem (by simp [packed])
  -- What the search finds tells which operands mention the pack.
  have hmentions : ∀ {n c : Node} {b : Bool}, n ∈ preorders packed.root.children →
      c ∈ n.children → packed.holdsPack ["a"] c = .ok b → (b = true ↔ packed.MentionsPack c) :=
    fun hn hc hb => (hsliceable.answers_holdsPack hmem
      (Node.mem_preorder_of_below (Node.mem_preorders_of_child hn hc))).iff hb
  refine ⟨hsliceable, hpacks, ?_, ?_⟩
  · obtain ⟨names, hnames, _, _, hliteral⟩ := construct_binary_fold (n := countedFold) rfl rfl rfl
      rfl rfl ⟨"+", rfl, rfl⟩ ⟨"+", rfl, rfl⟩ hsliceable (Node.mem_preorder_of_below hcounted)
    obtain rfl : ["a"] = names := Except.ok.inj (hpacks.symm.trans hnames)
    have hleft : false = true ↔ packed.MentionsPack countedOperand :=
      hmentions hcounted (by simp [countedFold]) rfl
    have hright : false = true ↔ packed.MentionsPack literalOperand :=
      hmentions hcounted (by simp [countedFold]) rfl
    refine (hliteral (hleft.symm.trans hright)).1 ?_ (.parenthesized rfl rfl (.bare rfl))
    rw [← Node.isPlainLiteral_iff]
    decide
  · obtain ⟨names, hnames, _, hpack, _⟩ := construct_binary_fold (n := expandedFold) rfl rfl rfl
      rfl rfl ⟨"+", rfl, rfl⟩ ⟨"+", rfl, rfl⟩ hsliceable (Node.mem_preorder_of_below hexpanded)
    obtain rfl : ["a"] = names := Except.ok.inj (hpacks.symm.trans hnames)
    have hleft : false = true ↔ packed.MentionsPack expandedOperand :=
      hmentions hexpanded (by simp [expandedFold]) rfl
    have hright : true = true ↔ packed.MentionsPack (.token .identifier 41 42) :=
      hmentions hexpanded (by simp [expandedFold]) rfl
    exact hpack (by simp [← hleft]) (hright.1 rfl)

end Document

end Downlevel
