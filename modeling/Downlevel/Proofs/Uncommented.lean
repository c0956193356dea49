import Downlevel.Construct
import Downlevel.Proofs.Layout

/-!
# Trees without their comments

All comments are taken out of a tree, and whatever else it holds stays where it
is. What is read off a node by position stays the same: its parts, its span, and
whether it is a literal or an assertion. A node below which only comments stood
becomes a token, but in a tree where whatever covers some of the text has tokens
that do, such a node is empty; so the tokens and the search for them stay the same.
-/

namespace Downlevel

namespace Node

mutual

def withoutComments : Node → Node
  | .mk kind start stop named missing children =>
    .mk kind start stop named missing (dropComments children)

def dropComments : List Node → List Node
  | [] => []
  | n :: ns => if n.isComment then dropComments ns else n.withoutComments :: dropComments ns

end

section Fields

variable (n : Node)

@[simp] theorem kind_withoutComments : n.withoutComments.kind = n.kind := by cases n; rfl

@[simp] theorem start_withoutComments : n.withoutComments.start = n.start := by cases n; rfl

@[simp] theorem stop_withoutComments : n.withoutComments.stop = n.stop := by cases n; rfl

@[simp] theorem named_withoutComments : n.withoutComments.named = n.named := by cases n; rfl

@[simp] theorem missing_withoutComments : n.withoutComments.missing = n.missing := by
  cases n; rfl

@[simp] theorem children_withoutComments :
    n.withoutComments.children = dropComments n.children := by
  cases n; rfl

@[simp] theorem isComment_withoutComments : n.withoutComments.isComment = n.isComment := by
  rw [isComment, isComment, kind_withoutComments]

@[simp] theorem isWide_withoutComments : n.withoutComments.isWide = n.isWide := by
  rw [isWide, isWide, start_withoutComments, stop_withoutComments]

@[simp] theorem isSolid_withoutComments : n.withoutComments.isSolid = n.isSolid := by
  rw [isSolid, isSolid, isComment_withoutComments, isWide_withoutComments]

@[simp] theorem isOperand_withoutComments : n.withoutComments.isOperand = n.isOperand := by
  simp only [isOperand, named_withoutComments, isComment_withoutComments, missing_withoutComments]

@[simp] theorem malformed_withoutComments : n.withoutComments.malformed = n.malformed := by
  simp [malformed]

end Fields

theorem dropComments_cons_of_pos {n : Node} (h : n.isComment = true) (ns : List Node) :
    dropComments (n :: ns) = dropComments ns := by
  rw [dropComments, if_pos h]

theorem dropComments_cons_of_neg {n : Node} (h : n.isComment = false) (ns : List Node) :
    dropComments (n :: ns) = n.withoutComments :: dropComments ns := by
  rw [dropComments, if_neg (by simp [h])]

theorem dropComments_eq (ns : List Node) :
    dropComments ns = (ns.filter (!·.isComment)).map withoutComments := by
  induction ns with
  | nil => rfl
  | cons n ns ih =>
    cases h : n.isComment with
    | true => simp [dropComments_cons_of_pos h, ih, h]
    | false => simp [dropComments_cons_of_neg h, ih, h]

theorem mem_dropComments {m : Node} {ns : List Node} :
    m ∈ dropComments ns ↔ ∃ n ∈ ns, n.isComment = false ∧ n.withoutComments = m := by
  simp [dropComments_eq, and_assoc]

theorem dropComments_append (ns ms : List Node) :
    dropComments (ns ++ ms) = dropComments ns ++ dropComments ms := by
  rw [dropComments_eq, List.filter_append, List.map_append, ← dropComments_eq, ← dropComments_eq]

theorem withoutComments_of_isToken {n : Node} (h : n.isToken = true) : n.withoutComments = n := by
  cases n with
  | mk kind start stop named missing children =>
    obtain rfl : children = [] := isToken_iff.1 h
    rw [withoutComments, dropComments]

theorem isToken_withoutComments_of_isToken {n : Node} (h : n.isToken = true) :
    n.withoutComments.isToken = true := by
  rw [withoutComments_of_isToken h, h]

theorem dropComments_children_of_isToken {n : Node} (h : n.withoutComments.isToken = true) :
    dropComments n.children = [] := by
  rw [← children_withoutComments]
  exact isToken_iff.1 h

/-- Every node that is left was there before, with its comments. -/
theorem exists_of_mem_preorders_dropComments {m : Node} {ns : List Node}
    (h : m ∈ preorders (dropComments ns)) :
    ∃ n ∈ preorders ns, n.isComment = false ∧ n.withoutComments = m := by
  induction ns using forest_induction with
  | nil => cases h
  | cons n ns below behind =>
    cases hn : n.isComment with
    | true =>
      rw [dropComments_cons_of_pos hn] at h
      obtain ⟨k, hk, heq⟩ := behind h
      exact ⟨k, mem_preorders_cons_of_behind hk, heq⟩
    | false =>
      rw [dropComments_cons_of_neg hn, mem_preorders_cons, children_withoutComments] at h
      rcases h with rfl | h | h
      · exact ⟨n, mem_preorders_head n ns, hn, rfl⟩
      · obtain ⟨k, hk, heq⟩ := below h
        exact ⟨k, mem_preorders_cons_of_below hk, heq⟩
      · obtain ⟨k, hk, heq⟩ := behind h
        exact ⟨k, mem_preorders_cons_of_behind hk, heq⟩

/-- A node that stands below no comment is left without its comments. -/
theorem mem_preorders_dropComments {n : Node} {ns : List Node}
    (hcomment : ∀ m ∈ preorders ns, m.kind = .comment → m.isToken = true)
    (hn : n ∈ preorders ns) (hsolid : n.isComment = false) :
    n.withoutComments ∈ preorders (dropComments ns) := by
  induction ns using forest_induction with
  | nil => cases hn
  | cons m ns below behind =>
    have hbehind := behind fun k hk => hcomment k (mem_preorders_cons_of_behind hk)
    cases hm : m.isComment with
    | true =>
      rw [dropComments_cons_of_pos hm]
      rcases mem_preorders_cons.1 hn with rfl | hn | hn
      · rw [hm] at hsolid
        cases hsolid
      · have htoken := hcomment m (mem_preorders_head m ns) (isComment_iff.1 hm)
        rw [isToken_iff.1 htoken] at hn
        cases hn
      · exact hbehind hn
    | false =>
      rw [dropComments_cons_of_neg hm, mem_preorders_cons, children_withoutComments]
      rcases mem_preorders_cons.1 hn with rfl | hn | hn
      · exact Or.inl rfl
      · exact Or.inr (Or.inl (below (fun k hk => hcomment k (mem_preorders_cons_of_below hk)) hn))
      · exact Or.inr (Or.inr (hbehind hn))

/-! ### What is read off a node -/

theorem parts_withoutComments (n : Node) :
    n.withoutComments.parts = n.parts.map withoutComments := by
  rw [parts, parts, children_withoutComments, dropComments_eq, List.filter_map, List.filter_filter]
  congr 1
  apply List.filter_congr
  intro c _
  simp [Bool.and_comm, Bool.and_left_comm]

theorem lastTokenStartOf?_dropComments (ns : List Node) :
    lastTokenStartOf? (dropComments ns) = lastTokenStartOf? ns := by
  induction ns using forest_induction with
  | nil => rfl
  | cons n ns below behind =>
    cases hn : n.isComment with
    | true =>
      rw [dropComments_cons_of_pos hn, behind, lastTokenStartOf?, hn]
      cases lastTokenStartOf? ns with
      | none => rfl
      | some s => rfl
    | false =>
      have hlast : n.withoutComments.lastTokenStart = n.lastTokenStart := by
        rw [lastTokenStart_eq, lastTokenStart_eq, children_withoutComments, below,
          start_withoutComments]
      rw [dropComments_cons_of_neg hn, lastTokenStartOf?, lastTokenStartOf?, behind,
        isComment_withoutComments, isWide_withoutComments, hlast]

@[simp] theorem span_withoutComments (n : Node) : n.withoutComments.span = n.span := by
  rw [span, span, lastTokenStart_eq, lastTokenStart_eq, children_withoutComments,
    lastTokenStartOf?_dropComments, start_withoutComments]

theorem any_dropComments {p : Node → Bool} (hp : ∀ n : Node, p n.withoutComments = p n)
    (hcomment : ∀ n : Node, n.isComment = true → p n = false) (ns : List Node) :
    (dropComments ns).any p = ns.any p := by
  induction ns with
  | nil => rfl
  | cons n ns ih =>
    cases hn : n.isComment with
    | true => rw [dropComments_cons_of_pos hn, List.any_cons, ih, hcomment n hn, Bool.false_or]
    | false => rw [dropComments_cons_of_neg hn, List.any_cons, List.any_cons, ih, hp n]

theorem isOperand_of_isComment {n : Node} (h : n.isComment = true) : n.isOperand = false := by
  simp [isOperand, h]

theorem isPlainLiteral_eq (n : Node) : n.isPlainLiteral =
    (n.kind.isLiteral || (n.kind == .parenthesized && isLonePlainLiteral n.children)) := by
  cases n
  rw [isPlainLiteral]

theorem isLonePlainLiteral_dropComments (ns : List Node) :
    isLonePlainLiteral (dropComments ns) = isLonePlainLiteral ns := by
  induction ns using forest_induction with
  | nil => rfl
  | cons n ns below behind =>
    cases hn : n.isComment with
    | true =>
      rw [dropComments_cons_of_pos hn, behind, isLonePlainLiteral, isOperand_of_isComment hn]
      rfl
    | false =>
      have hliteral : n.withoutComments.isPlainLiteral = n.isPlainLiteral := by
        rw [isPlainLiteral_eq, isPlainLiteral_eq, kind_withoutComments, children_withoutComments,
          below]
      rw [dropComments_cons_of_neg hn, isLonePlainLiteral, isLonePlainLiteral, hliteral,
        any_dropComments isOperand_withoutComments (fun _ => isOperand_of_isComment), behind,
        isOperand_withoutComments]

@[simp] theorem isPlainLiteral_withoutComments (n : Node) :
    n.withoutComments.isPlainLiteral = n.isPlainLiteral := by
  rw [isPlainLiteral_eq, isPlainLiteral_eq, kind_withoutComments, children_withoutComments,
    isLonePlainLiteral_dropComments]

theorem dropWhile_kind_map (kind : Kind) (ns : List Node) :
    (ns.map withoutComments).dropWhile (·.kind != kind) =
      (ns.dropWhile (·.kind != kind)).map withoutComments := by
  rw [List.dropWhile_map]
  congr 2
  funext n
  simp

theorem find?_named_map (ns : List Node) :
    (ns.map withoutComments).find? (·.named) = (ns.find? (·.named)).map withoutComments := by
  rw [List.find?_map]
  congr 2
  funext n
  simp

theorem arguments?_map (parts : List Node) :
    arguments? (parts.map withoutComments) =
      (arguments? parts).map fun a => (a.1.map withoutComments, a.2.withoutComments) := by
  simp only [arguments?]
  rw [dropWhile_kind_map, ← List.map_tail, ← List.map_reverse, dropWhile_kind_map]
  cases (parts.dropWhile (·.kind != .openParen)).tail.reverse.dropWhile
      (·.kind != .closeParen) with
  | nil => rfl
  | cons closing before => simp

theorem assertion_withoutComments (n : Node) : n.withoutComments.assertion = n.assertion := by
  rw [assertion, assertion, parts_withoutComments, List.head?_map, arguments?_map,
    malformed_withoutComments]
  cases n.parts.head? with
  | none => rfl
  | some keyword =>
    cases arguments? n.parts with
    | none => rfl
    | some a =>
      obtain ⟨arguments, closing⟩ := a
      simp only [Option.map_some]
      rw [find?_named_map, dropWhile_kind_map, ← List.map_tail, find?_named_map]
      cases arguments.find? (·.named) with
      | none => rfl
      | some condition => simp [Function.comp_def]

/-! ### Tokens -/

/-- Solid nodes of the forest that are no tokens do not become tokens. -/
def KeepsTokens (ns : List Node) : Prop :=
  ∀ n ∈ preorders ns, n.isSolid = true → n.withoutComments.isToken = n.isToken

namespace KeepsTokens

variable {n : Node} {ns : List Node}

theorem below (h : KeepsTokens (n :: ns)) : KeepsTokens n.children :=
  fun m hm => h m (mem_preorders_cons_of_below hm)

theorem behind (h : KeepsTokens (n :: ns)) : KeepsTokens ns :=
  fun m hm => h m (mem_preorders_cons_of_behind hm)

/-- A node that becomes a token is empty. -/
theorem isWide_eq_false (h : KeepsTokens ns) (hn : n ∈ preorders ns)
    (hcomment : n.isComment = false) (htoken : n.isToken = false)
    (htoken' : n.withoutComments.isToken = true) : n.isWide = false := by
  by_contra hwide
  have hsolid : n.isSolid = true := isSolid_iff.2 ⟨hcomment, by simpa using hwide⟩
  rw [h n hn hsolid, htoken] at htoken'
  cases htoken'

end KeepsTokens

theorem solidTokens_dropComments {ns : List Node} (hlaid : LaidOut ns) (hkeeps : KeepsTokens ns)
    (hcomment : ∀ n ∈ preorders ns, n.kind = .comment → n.isToken = true) :
    solidTokens (dropComments ns) = solidTokens ns := by
  induction ns using forest_induction with
  | nil => rfl
  | cons n ns below behind =>
    have hbelow := below hlaid.head_children hkeeps.below
      fun m hm => hcomment m (mem_preorders_cons_of_below hm)
    have hbehind := behind hlaid.tail hkeeps.behind
      fun m hm => hcomment m (mem_preorders_cons_of_behind hm)
    cases hn : n.isComment with
    | true =>
      rw [dropComments_cons_of_pos hn, hbehind, hlaid.solidTokens_cons_of_neg
        (hcomment n (mem_preorders_head n ns)) (by simp [isSolid, hn])]
    | false =>
      rw [dropComments_cons_of_neg hn, solidTokens_cons, solidTokens_cons, hbehind]
      congr 1
      cases htoken : n.isToken with
      | true => rw [withoutComments_of_isToken htoken]
      | false =>
        cases htoken' : n.withoutComments.isToken with
        | false =>
          rw [tokens_of_inner htoken, tokens_of_inner htoken', children_withoutComments]
          exact hbelow
        | true =>
          -- Only comments stood below the node, and neither has it a width of its own.
          have hwide := hkeeps.isWide_eq_false (mem_preorders_head n ns) hn htoken htoken'
          have hnone : solidTokens n.children = [] := by
            rw [← hbelow, dropComments_children_of_isToken htoken']
            rfl
          rw [tokens_of_inner htoken, tokens_of_isToken htoken', start_withoutComments,
            stop_withoutComments, if_neg (by simpa [isWide] using hwide)]
          exact hnone.symm

theorem exists_contains_of_tokenEndOf? {ns : List Node} {pos stop : Nat}
    (h : tokenEndOf? pos ns = some stop) : ∃ n ∈ ns, n.contains pos = true := by
  induction ns with
  | nil => cases h
  | cons n ns ih =>
    rw [tokenEndOf?] at h
    split_ifs at h with henter
    · exact ⟨n, List.mem_cons_self, (Bool.and_eq_true_iff.1 henter).2⟩
    · obtain ⟨m, hm, hcontains⟩ := ih h
      exact ⟨m, List.mem_cons_of_mem n hm, hcontains⟩

/-- A token that is found without the comments is found with them. -/
theorem tokenEndOf?_of_dropComments {ns : List Node} {pos stop : Nat} (hlaid : LaidOut ns)
    (hkeeps : KeepsTokens ns) (h : tokenEndOf? pos (dropComments ns) = some stop) :
    tokenEndOf? pos ns = some stop := by
  induction ns using forest_induction with
  | nil => cases h
  | cons n ns below behind =>
    cases hn : n.isComment with
    | true =>
      rw [dropComments_cons_of_pos hn] at h
      have hbehind := behind hlaid.tail hkeeps.behind h
      -- The token stands in a later tree, so the search passes the comment over.
      obtain ⟨m, hm, hcontains⟩ := exists_contains_of_tokenEndOf? hbehind
      have hapart : n.stop ≤ m.start := (List.pairwise_cons.1 hlaid.apart).1 m hm
      rw [tokenEndOf?, if_neg, hbehind]
      simp only [isWide, contains, Bool.and_eq_true, decide_eq_true_eq] at hcontains ⊢
      omega
    | false =>
      have hcontains : n.withoutComments.contains pos = n.contains pos := by simp [contains]
      rw [dropComments_cons_of_neg hn, tokenEndOf?, isWide_withoutComments, hcontains] at h
      rw [tokenEndOf?]
      split_ifs at h ⊢ with henter
      · have hwide : n.isWide = true := (Bool.and_eq_true_iff.1 henter).1
        have hsame := hkeeps n (mem_preorders_head n ns) (isSolid_iff.2 ⟨hn, hwide⟩)
        cases htoken : n.isToken with
        | true =>
          rw [withoutComments_of_isToken htoken] at h
          exact h
        | false =>
          rw [tokenEnd?_of_inner (hsame.trans htoken), children_withoutComments] at h
          rw [tokenEnd?_of_inner htoken]
          exact below hlaid.head_children hkeeps.below h
      · exact behind hlaid.tail hkeeps.behind h

end Node

end Downlevel
