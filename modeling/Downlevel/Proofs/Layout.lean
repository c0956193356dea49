import Downlevel.Document
import Downlevel.Proofs.Cut
import Downlevel.Proofs.Forest
import Mathlib.Data.List.Chain

/-!
# Layout of trees over a text

A tree is laid out if every node covers its children and these stand in order
and apart. In such a tree the search for a token cannot go astray, and nodes of
which none stands above another cover disjoint parts of the text, in document
order. A well-formed document has a tree that is laid out over its text, in
which every construct has its tokens.
-/

namespace Downlevel

namespace Node

/-- The node covers its children, and each of them ends before the next one starts. -/
structure Nested (n : Node) : Prop where
  start_le_stop : n.start ≤ n.stop
  covers : ∀ c ∈ n.children, n.start ≤ c.start ∧ c.stop ≤ n.stop
  apart : n.children.IsChain fun a b => a.stop ≤ b.start

instance (n : Node) : Decidable n.Nested :=
  decidable_of_iff
    (n.start ≤ n.stop ∧ (∀ c ∈ n.children, n.start ≤ c.start ∧ c.stop ≤ n.stop) ∧
      n.children.IsChain fun a b => a.stop ≤ b.start)
    ⟨fun ⟨hle, hcovers, hapart⟩ => ⟨hle, hcovers, hapart⟩,
      fun h => ⟨h.start_le_stop, h.covers, h.apart⟩⟩

/-- The trees of a forest stand in order and apart, and so do all nodes below them. -/
structure LaidOut (ns : List Node) : Prop where
  nested : ∀ n ∈ preorders ns, n.Nested
  apart : ns.Pairwise fun a b => a.stop ≤ b.start

theorem pairwise_of_isChain {ns : List Node} (hle : ∀ n ∈ ns, n.start ≤ n.stop)
    (h : ns.IsChain fun a b => a.stop ≤ b.start) : ns.Pairwise fun a b => a.stop ≤ b.start := by
  induction ns with
  | nil => exact List.Pairwise.nil
  | cons a ns ih =>
    have hns := ih (fun n hn => hle n (List.mem_cons_of_mem a hn)) h.tail
    refine List.Pairwise.cons (fun b hb => ?_) hns
    cases ns with
    | nil => cases hb
    | cons c cs =>
      have hac : a.stop ≤ c.start := h.rel
      rcases List.mem_cons.1 hb with rfl | hb
      · exact hac
      · have hcb : c.stop ≤ b.start := (List.pairwise_cons.1 hns).1 b hb
        have hc : c.start ≤ c.stop := hle c (by simp)
        omega

namespace LaidOut

theorem of_nested {n : Node} (h : ∀ m ∈ n.preorder, m.Nested) : LaidOut n.children := by
  rw [preorder_eq] at h
  have hbelow : ∀ m ∈ preorders n.children, m.Nested := fun m hm => h m (List.mem_cons_of_mem n hm)
  refine ⟨hbelow, pairwise_of_isChain (fun m hm => ?_) (h n List.mem_cons_self).apart⟩
  exact (hbelow m (mem_preorders_of_mem hm)).start_le_stop

theorem singleton {n : Node} (h : ∀ m ∈ n.preorder, m.Nested) : LaidOut [n] :=
  ⟨fun m hm => h m (preorders_singleton n ▸ hm), List.pairwise_singleton _ _⟩

theorem children {ns : List Node} (h : LaidOut ns) {n : Node} (hn : n ∈ preorders ns) :
    LaidOut n.children := by
  apply of_nested
  intro m hm
  rw [preorder_eq, List.mem_cons] at hm
  rcases hm with rfl | hm
  · exact h.nested m hn
  · exact h.nested m (mem_preorders_of_below hn hm)

theorem tail {n : Node} {ns : List Node} (h : LaidOut (n :: ns)) : LaidOut ns :=
  ⟨fun m hm => h.nested m (mem_preorders_cons_of_behind hm),
    (List.pairwise_cons.1 h.apart).2⟩

theorem head {n : Node} {ns : List Node} (h : LaidOut (n :: ns)) : n.Nested :=
  h.nested n (mem_preorders_head n ns)

theorem head_children {n : Node} {ns : List Node} (h : LaidOut (n :: ns)) : LaidOut n.children :=
  h.children (mem_preorders_head n ns)

/-- Every node is covered by the tree that it belongs to. -/
theorem exists_covers {ns : List Node} (h : LaidOut ns) {m : Node} (hm : m ∈ preorders ns) :
    ∃ n ∈ ns, n.start ≤ m.start ∧ m.stop ≤ n.stop := by
  induction ns using forest_induction with
  | nil => cases hm
  | cons n ns below behind =>
    rcases mem_preorders_cons.1 hm with rfl | hm | hm
    · exact ⟨m, List.mem_cons_self, Nat.le_refl _, Nat.le_refl _⟩
    · obtain ⟨c, hc, hstart, hstop⟩ := below h.head_children hm
      obtain ⟨hcstart, hcstop⟩ := h.head.covers c hc
      exact ⟨n, List.mem_cons_self, by omega, by omega⟩
    · obtain ⟨k, hk, hcovers⟩ := behind h.tail hm
      exact ⟨k, List.mem_cons_of_mem n hk, hcovers⟩

/-- Every node of the first tree is covered by it. -/
theorem covers_head {n : Node} {ns : List Node} (h : LaidOut (n :: ns)) {m : Node}
    (hm : m ∈ n.preorder) : n.start ≤ m.start ∧ m.stop ≤ n.stop := by
  rw [preorder_eq, List.mem_cons] at hm
  rcases hm with rfl | hm
  · omega
  · obtain ⟨c, hc, hstart, hstop⟩ := h.head_children.exists_covers hm
    have := h.head.covers c hc
    omega

/-- Every node of the first tree ends before any node of a later one starts. -/
theorem stop_le_start {n : Node} {ns : List Node} (h : LaidOut (n :: ns)) {a b : Node}
    (ha : a ∈ n.preorder) (hb : b ∈ preorders ns) : a.stop ≤ b.start := by
  obtain ⟨k, hk, hkb, _⟩ := h.tail.exists_covers hb
  have hnk : n.stop ≤ k.start := (List.pairwise_cons.1 h.apart).1 k hk
  have := (h.covers_head ha).2
  omega

/-- The children of the first tree can take its place. -/
theorem open_head {n : Node} {ns : List Node} (h : LaidOut (n :: ns)) :
    LaidOut (n.children ++ ns) := by
  constructor
  · intro m hm
    rw [preorders_append, List.mem_append] at hm
    rcases hm with hm | hm
    · exact h.head_children.nested m hm
    · exact h.tail.nested m hm
  · rw [List.pairwise_append]
    refine ⟨h.head_children.apart, h.tail.apart, fun a ha b hb => ?_⟩
    exact h.stop_le_start (mem_preorder_of_below (mem_preorders_of_mem ha))
      (mem_preorders_of_mem hb)

/-- Outermost nodes of any sort cover parts of the text that stand in order and apart. -/
theorem pairwise_outermost (p : Node → Bool) {ns : List Node} (h : LaidOut ns) :
    (outermost p ns).Pairwise fun a b => a.stop ≤ b.start := by
  induction ns using forest_induction with
  | nil => exact List.Pairwise.nil
  | cons n ns below behind =>
    have hns := behind h.tail
    by_cases hp : p n = true
    · rw [outermost_cons_of_pos hp]
      refine List.Pairwise.cons (fun b hb => ?_) hns
      exact h.stop_le_start n.mem_preorder_self (mem_preorders_of_mem_outermost hb)
    · have hn : p n = false := by simpa using hp
      rw [outermost_cons_of_neg hn, List.pairwise_append]
      refine ⟨below h.head_children, hns, fun a ha b hb => ?_⟩
      exact h.stop_le_start (mem_preorder_of_below (mem_preorders_of_mem_outermost ha))
        (mem_preorders_of_mem_outermost hb)

end LaidOut

/-! ### Tokens -/

theorem isToken_iff {n : Node} : n.isToken = true ↔ n.children = [] :=
  List.isEmpty_iff

theorem isToken_eq_false_of_below {n m : Node} (h : m ∈ preorders n.children) :
    n.isToken = false := by
  cases hn : n.children with
  | nil =>
    rw [hn] at h
    cases h
  | cons c cs => simp [isToken, hn]

theorem tokens_of_isToken {n : Node} (h : n.isToken = true) :
    n.tokens = if n.start < n.stop then [n] else [] := by
  cases n with
  | mk kind start stop named missing children =>
    obtain rfl : children = [] := isToken_iff.1 h
    rw [tokens]

theorem tokens_of_inner {n : Node} (h : n.isToken = false) : n.tokens = tokensOf n.children := by
  cases n with
  | mk kind start stop named missing children =>
    cases children with
    | nil => cases h
    | cons c cs => rw [tokens]

theorem mem_tokens_of_isToken {t n : Node} (h : n.isToken = true) :
    t ∈ n.tokens ↔ t = n ∧ t.isWide = true := by
  rw [tokens_of_isToken h]
  by_cases hwide : n.start < n.stop
  · rw [if_pos hwide, List.mem_singleton]
    exact ⟨fun ht => ⟨ht, by rw [ht]; simpa [isWide] using hwide⟩, fun ht => ht.1⟩
  · rw [if_neg hwide]
    constructor
    · intro ht
      cases ht
    · rintro ⟨rfl, ht⟩
      exact absurd (by simpa [isWide] using ht) hwide

/-- The tokens of a forest are its wide leaves. -/
theorem mem_tokensOf_iff {t : Node} {ns : List Node} :
    t ∈ tokensOf ns ↔ t ∈ preorders ns ∧ t.isToken = true ∧ t.isWide = true := by
  induction ns using forest_induction with
  | nil => simp [tokensOf, preorders]
  | cons n ns below behind =>
    have hhead : t ∈ n.tokens ↔
        (t = n ∨ t ∈ preorders n.children) ∧ t.isToken = true ∧ t.isWide = true := by
      by_cases htoken : n.isToken = true
      · rw [mem_tokens_of_isToken htoken, isToken_iff.1 htoken]
        constructor
        · rintro ⟨rfl, hwide⟩
          exact ⟨Or.inl rfl, htoken, hwide⟩
        · rintro ⟨rfl | h, _, hwide⟩
          · exact ⟨rfl, hwide⟩
          · cases h
      · rw [tokens_of_inner (by simpa using htoken), below]
        constructor
        · rintro ⟨h, ht⟩
          exact ⟨Or.inr h, ht⟩
        · rintro ⟨rfl | h, ht⟩
          · exact absurd ht.1 htoken
          · exact ⟨h, ht⟩
    rw [tokensOf, List.mem_append, hhead, behind, mem_preorders_cons, ← or_and_right, or_assoc]

theorem mem_tokens_iff {t n : Node} :
    t ∈ n.tokens ↔ t ∈ n.preorder ∧ t.isToken = true ∧ t.isWide = true := by
  have h : t ∈ tokensOf [n] ↔ t ∈ preorders [n] ∧ t.isToken = true ∧ t.isWide = true :=
    mem_tokensOf_iff
  simpa [tokensOf, preorders] using h

theorem start_lt_stop_of_mem_tokens {n t : Node} (ht : t ∈ n.tokens) : t.start < t.stop := by
  simpa [isWide] using (mem_tokens_iff.1 ht).2.2

theorem tokenEnd?_of_isToken {n : Node} {pos : Nat} (h : n.isToken = true) :
    n.tokenEnd? pos = if n.start = pos ∧ pos < n.stop then some n.stop else none := by
  cases n with
  | mk kind start stop named missing children =>
    obtain rfl : children = [] := isToken_iff.1 h
    rw [tokenEnd?]

theorem tokenEnd?_of_inner {n : Node} {pos : Nat} (h : n.isToken = false) :
    n.tokenEnd? pos = tokenEndOf? pos n.children := by
  cases n with
  | mk kind start stop named missing children =>
    cases children with
    | nil => cases h
    | cons c cs => rw [tokenEnd?]

/-- In a forest that is laid out the search finds every wide token. -/
theorem LaidOut.tokenEndOf?_eq_some {ns : List Node} (h : LaidOut ns) {t : Node}
    (ht : t ∈ preorders ns) (htoken : t.isToken = true) (hwide : t.isWide = true) :
    tokenEndOf? t.start ns = some t.stop := by
  have hlt : t.start < t.stop := by simpa [isWide] using hwide
  -- Only the tree that the token belongs to covers the place where it starts.
  induction ns using forest_induction with
  | nil => cases ht
  | cons n ns below behind =>
    rw [tokenEndOf?]
    rcases mem_preorders_cons.1 ht with rfl | ht | ht
    · have henter : (t.isWide && t.contains t.start) = true := by simp [isWide, contains, hlt]
      rw [if_pos henter, tokenEnd?_of_isToken htoken, if_pos ⟨rfl, hlt⟩]
    · have hcovers : n.start ≤ t.start ∧ t.stop ≤ n.stop :=
        h.covers_head (mem_preorder_of_below ht)
      have henter : (n.isWide && n.contains t.start) = true := by
        simp only [isWide, contains, Bool.and_eq_true, decide_eq_true_eq]
        omega
      rw [if_pos henter, tokenEnd?_of_inner (isToken_eq_false_of_below ht)]
      exact below h.head_children ht
    · have hbefore : n.stop ≤ t.start := h.stop_le_start n.mem_preorder_self ht
      have hpass : ¬ (n.isWide && n.contains t.start) = true := by
        simp only [isWide, contains, Bool.and_eq_true, decide_eq_true_eq]
        omega
      rw [if_neg hpass]
      exact behind h.tail ht

def isSolid (n : Node) : Bool := !n.isComment && n.isWide

theorem isComment_iff {n : Node} : n.isComment = true ↔ n.kind = .comment := by
  simp [isComment]

theorem isSolid_iff {n : Node} : n.isSolid = true ↔ n.isComment = false ∧ n.isWide = true := by
  simp [isSolid]

theorem lastTokenStart_eq (n : Node) :
    n.lastTokenStart = (lastTokenStartOf? n.children).getD n.start := by
  cases n
  rw [lastTokenStart]

theorem lastTokenStartOf?_eq_none {ns : List Node} (h : ∀ n ∈ ns, n.isSolid = false) :
    lastTokenStartOf? ns = none := by
  induction ns with
  | nil => rw [lastTokenStartOf?]
  | cons n ns ih =>
    have hn : (!n.isComment && n.isWide) = false := h n List.mem_cons_self
    rw [lastTokenStartOf?, ih fun m hm => h m (List.mem_cons_of_mem n hm)]
    simp [hn]

def solidTokens (ns : List Node) : List Node := (tokensOf ns).filter (!·.isComment)

def lastToken? (n : Node) : Option Node := (n.tokens.filter (!·.isComment)).getLast?

theorem solidTokens_cons (n : Node) (ns : List Node) :
    solidTokens (n :: ns) = n.tokens.filter (!·.isComment) ++ solidTokens ns := by
  rw [solidTokens, tokensOf, List.filter_append, solidTokens]

/-- A tree of which nothing but comments can be seen has no other tokens. -/
theorem LaidOut.solidTokens_cons_of_neg {n : Node} {ns : List Node} (h : LaidOut (n :: ns))
    (hcomment : n.kind = .comment → n.isToken = true) (hn : n.isSolid = false) :
    solidTokens (n :: ns) = solidTokens ns := by
  rw [solidTokens_cons, List.filter_eq_nil_iff.2, List.nil_append]
  intro t ht
  obtain ⟨ht, _, hwide⟩ := mem_tokens_iff.1 ht
  by_cases hkind : n.kind = .comment
  · rw [preorder_eq, isToken_iff.1 (hcomment hkind)] at ht
    obtain rfl : t = n := by simpa [preorders] using ht
    simp [isComment, hkind]
  · obtain ⟨hstart, hstop⟩ := h.covers_head ht
    simp only [isSolid, isComment, isWide] at hn hwide
    simp [hkind] at hn hwide
    omega

theorem LaidOut.solidTokens_eq_nil {ns : List Node} (h : LaidOut ns)
    (hcomment : ∀ n ∈ ns, n.kind = .comment → n.isToken = true)
    (hns : ∀ n ∈ ns, n.isSolid = false) : solidTokens ns = [] := by
  induction ns with
  | nil => rfl
  | cons n ns ih =>
    rw [h.solidTokens_cons_of_neg (hcomment n List.mem_cons_self) (hns n List.mem_cons_self)]
    exact ih h.tail (fun m hm => hcomment m (List.mem_cons_of_mem n hm))
      fun m hm => hns m (List.mem_cons_of_mem n hm)

/-- If solid nodes have solid children, down to the tokens, then a forest with a solid tree
ends in a solid token, comments and empty nodes aside. -/
theorem LaidOut.exists_lastToken {ns : List Node} (h : LaidOut ns)
    (hcomment : ∀ n ∈ preorders ns, n.kind = .comment → n.isToken = true)
    (hchild : ∀ n ∈ preorders ns, n.isSolid = true → n.isToken = false →
      ∃ c ∈ n.children, c.isSolid = true)
    (hsolid : ∃ n ∈ ns, n.isSolid = true) :
    ∃ t, (solidTokens ns).getLast? = some t ∧ lastTokenStartOf? ns = some t.start := by
  induction ns using forest_induction with
  | nil => simp at hsolid
  | cons n ns below behind =>
    -- The last token is sought from the end, so the first tree counts only if no later one does.
    by_cases hbehind : ∃ m ∈ ns, m.isSolid = true
    · obtain ⟨t, ht, hlast⟩ := behind h.tail
        (fun m hm => hcomment m (mem_preorders_cons_of_behind hm))
        (fun m hm => hchild m (mem_preorders_cons_of_behind hm)) hbehind
      refine ⟨t, ?_, by rw [lastTokenStartOf?, hlast]⟩
      rw [solidTokens_cons, List.getLast?_append, ht, Option.some_or]
    · have hnone : ∀ m ∈ ns, m.isSolid = false := fun m hm => by
        by_contra hm'
        exact hbehind ⟨m, hm, by simpa using hm'⟩
      have hn : n.isSolid = true := by
        obtain ⟨m, hm, hsolid⟩ := hsolid
        rcases List.mem_cons.1 hm with rfl | hm
        · exact hsolid
        · exact absurd ⟨m, hm, hsolid⟩ hbehind
      have htokens : solidTokens (n :: ns) = n.tokens.filter (!·.isComment) := by
        rw [solidTokens_cons, h.tail.solidTokens_eq_nil (fun m hm =>
          hcomment m (mem_preorders_cons_of_behind (mem_preorders_of_mem hm))) hnone,
          List.append_nil]
      have hlast : lastTokenStartOf? (n :: ns) = some n.lastTokenStart := by
        rw [lastTokenStartOf?, lastTokenStartOf?_eq_none hnone]
        exact if_pos hn
      rw [htokens, hlast, lastTokenStart_eq]
      by_cases htoken : n.isToken = true
      · obtain ⟨hsolid, hwide⟩ := Bool.and_eq_true_iff.1 hn
        refine ⟨n, ?_, by rw [isToken_iff.1 htoken, lastTokenStartOf?, Option.getD_none]⟩
        rw [tokens_of_isToken htoken, if_pos (by simpa [isWide] using hwide)]
        simp only [List.filter_cons, hsolid, if_true, List.filter_nil, List.getLast?_singleton]
      · have hinner : n.isToken = false := by simpa using htoken
        obtain ⟨t, ht, hlast⟩ := below h.head_children
          (fun m hm => hcomment m (mem_preorders_cons_of_below hm))
          (fun m hm => hchild m (mem_preorders_cons_of_below hm))
          (hchild n (mem_preorders_head n ns) hn hinner)
        rw [tokens_of_inner hinner]
        exact ⟨t, ht, by rw [hlast, Option.getD_some]⟩

end Node

namespace Document

open Node (preorders)

/-- The ranges of the tree nest, and the text can be cut at all their ends; so they lie in it. -/
structure Measured (d : Document) : Prop where
  nested : ∀ n ∈ d.root.preorder, n.Nested
  isBoundary : ∀ n ∈ d.root.preorder,
    Text.isBoundary d.text n.start = true ∧ Text.isBoundary d.text n.stop = true

instance (d : Document) : Decidable d.Measured :=
  decidable_of_iff
    ((∀ n ∈ d.root.preorder, n.Nested) ∧ ∀ n ∈ d.root.preorder,
      Text.isBoundary d.text n.start = true ∧ Text.isBoundary d.text n.stop = true)
    ⟨fun ⟨hnested, hboundary⟩ => ⟨hnested, hboundary⟩, fun h => ⟨h.nested, h.isBoundary⟩⟩

/-- Comments are tokens, and whatever else covers some of the text has tokens that do. -/
structure Tokenized (d : Document) : Prop extends d.Measured where
  comment_isToken : ∀ n ∈ d.root.preorder, n.kind = .comment → n.isToken = true
  solid_child : ∀ n ∈ preorders d.root.children, n.isSolid = true → n.isToken = false →
    ∃ c ∈ n.children, c.isSolid = true

instance (d : Document) : Decidable d.Tokenized :=
  decidable_of_iff
    (d.Measured ∧ (∀ n ∈ d.root.preorder, n.kind = .comment → n.isToken = true) ∧
      ∀ n ∈ preorders d.root.children, n.isSolid = true → n.isToken = false →
        ∃ c ∈ n.children, c.isSolid = true)
    ⟨fun ⟨hmeasured, hcomment, hsolid⟩ => ⟨hmeasured, hcomment, hsolid⟩,
      fun h => ⟨h.toMeasured, h.comment_isToken, h.solid_child⟩⟩

structure WellFormedAt (d : Document) (kind : Kind) : Prop extends d.Tokenized where
  closeParen_isToken : ∀ n ∈ d.root.preorder, n.kind = .closeParen → n.isToken = true
  part_isWide : ∀ n ∈ d.root.preorder, n.kind = kind → ∀ c ∈ n.parts, c.isWide = true

instance (d : Document) (kind : Kind) : Decidable (d.WellFormedAt kind) :=
  decidable_of_iff
    (d.Tokenized ∧ (∀ n ∈ d.root.preorder, n.kind = .closeParen → n.isToken = true) ∧
      ∀ n ∈ d.root.preorder, n.kind = kind → ∀ c ∈ n.parts, c.isWide = true)
    ⟨fun ⟨htokenized, hclose, hwide⟩ => ⟨htokenized, hclose, hwide⟩,
      fun h => ⟨h.toTokenized, h.closeParen_isToken, h.part_isWide⟩⟩

/-- What a construct is read off from covers some of the text, and its last parenthesis is
a token. -/
structure WellFormed (d : Document) : Prop extends d.Tokenized where
  closeParen_isToken : ∀ n ∈ d.root.preorder, n.kind = .closeParen → n.isToken = true
  part_isWide : ∀ n ∈ d.root.preorder, n.kind = .foldExpression ∨ n.kind = .staticAssertion →
    ∀ c ∈ n.parts, c.isWide = true

instance (d : Document) : Decidable d.WellFormed :=
  decidable_of_iff
    (d.Tokenized ∧ (∀ n ∈ d.root.preorder, n.kind = .closeParen → n.isToken = true) ∧
      ∀ n ∈ d.root.preorder, n.kind = .foldExpression ∨ n.kind = .staticAssertion →
        ∀ c ∈ n.parts, c.isWide = true)
    ⟨fun ⟨htokenized, hclose, hwide⟩ => ⟨htokenized, hclose, hwide⟩,
      fun h => ⟨h.toTokenized, h.closeParen_isToken, h.part_isWide⟩⟩

theorem WellFormed.at_kind {d : Document} (h : d.WellFormed) {kind : Kind}
    (hkind : kind = .foldExpression ∨ kind = .staticAssertion) : d.WellFormedAt kind where
  toTokenized := h.toTokenized
  closeParen_isToken := h.closeParen_isToken
  part_isWide n hn hn' := h.part_isWide n hn (hn' ▸ hkind)

/-- The span starts and ends in `n` where the text can be cut, and its last token ends
at `stop`. -/
structure Spans (d : Document) (n : Node) (s : Span) (stop : Nat) : Prop where
  start_le_first : n.start ≤ s.first
  first_le_last : s.first ≤ s.last
  last_lt_stop : s.last < stop
  stop_le_stop : stop ≤ n.stop
  first_isBoundary : Text.isBoundary d.text s.first = true
  stop_isBoundary : Text.isBoundary d.text stop = true
  tokenEnd_eq : d.root.tokenEnd? s.last = some stop

end Document

end Downlevel
