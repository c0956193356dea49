import Downlevel.Proofs.Pass

/-!
# Positions and tokens

A span names its last token by the byte at which that token starts. The end of
the token is sought from the root down, in the first child that covers the byte,
and is never sought elsewhere. In any tree what is found is a token that starts
there; in a tree that is laid out every token is found, and only one token
starts at a byte. So what a span reads depends on the list of tokens alone.

The start of the last token is sought from a node down, past comments and empty
nodes. Both searches meet in the same token, the last one of the node that is no
comment, and what is not read behind it holds only comments.
-/

namespace Downlevel

namespace Node

theorem exists_token_of_tokenEnd? {n : Node} {pos stop : Nat}
    (hchildren : tokenEndOf? pos n.children = some stop →
      ∃ t ∈ tokensOf n.children, t.start = pos ∧ t.stop = stop)
    (h : n.tokenEnd? pos = some stop) : ∃ t ∈ n.tokens, t.start = pos ∧ t.stop = stop := by
  by_cases htoken : n.isToken = true
  · rw [tokenEnd?_of_isToken htoken] at h
    split_ifs at h with hpos
    have hstop : n.stop = stop := Option.some.inj h
    refine ⟨n, ?_, hpos.1, hstop⟩
    rw [tokens_of_isToken htoken, if_pos (by omega)]
    exact List.mem_singleton_self n
  · have hinner : n.isToken = false := by simpa using htoken
    rw [tokenEnd?_of_inner hinner] at h
    rw [tokens_of_inner hinner]
    exact hchildren h

theorem exists_token_of_tokenEndOf? {ns : List Node} {pos stop : Nat}
    (h : tokenEndOf? pos ns = some stop) :
    ∃ t ∈ tokensOf ns, t.start = pos ∧ t.stop = stop := by
  induction ns using forest_induction with
  | nil => cases h
  | cons n ns below behind =>
    rw [tokenEndOf?] at h
    rw [tokensOf]
    -- The search never leaves the node it enters, so what it finds is below that node.
    split_ifs at h with henter
    · obtain ⟨t, ht, hrange⟩ := exists_token_of_tokenEnd? below h
      exact ⟨t, List.mem_append_left _ ht, hrange⟩
    · obtain ⟨t, ht, hrange⟩ := behind h
      exact ⟨t, List.mem_append_right _ ht, hrange⟩

theorem tokenEnd?_of_mem_tokens {n t : Node} (h : ∀ m ∈ n.preorder, m.Nested)
    (ht : t ∈ n.tokens) : n.tokenEnd? t.start = some t.stop := by
  by_cases htoken : n.isToken = true
  · obtain ⟨rfl, hwide⟩ := (mem_tokens_of_isToken htoken).1 ht
    have hlt : t.start < t.stop := by simpa [isWide] using hwide
    rw [tokenEnd?_of_isToken htoken, if_pos ⟨rfl, hlt⟩]
  · have hinner : n.isToken = false := by simpa using htoken
    rw [tokens_of_inner hinner] at ht
    obtain ⟨hmem, htoken, hwide⟩ := mem_tokensOf_iff.1 ht
    rw [tokenEnd?_of_inner hinner]
    exact (LaidOut.of_nested h).tokenEndOf?_eq_some hmem htoken hwide

theorem LaidOut.pairwise_tokensOf {ns : List Node} (h : LaidOut ns) :
    (tokensOf ns).Pairwise fun a b => a.stop ≤ b.start := by
  induction ns using forest_induction with
  | nil => exact List.Pairwise.nil
  | cons n ns below behind =>
    rw [tokensOf, List.pairwise_append]
    refine ⟨?_, behind h.tail, ?_⟩
    · by_cases htoken : n.isToken = true
      · rw [tokens_of_isToken htoken]
        split_ifs
        · exact List.pairwise_singleton _ _
        · exact List.Pairwise.nil
      · rw [tokens_of_inner (by simpa using htoken)]
        exact below h.head_children
    · intro a ha b hb
      exact h.stop_le_start (mem_tokens_iff.1 ha).1 (mem_tokensOf_iff.1 hb).1

theorem pairwise_tokens {n : Node} (h : ∀ m ∈ n.preorder, m.Nested) :
    n.tokens.Pairwise fun a b => a.stop ≤ b.start := by
  have hpair := (LaidOut.singleton h).pairwise_tokensOf
  rw [tokensOf, tokensOf, List.append_nil] at hpair
  exact hpair

theorem filter_tokens_start {n t : Node} (h : ∀ m ∈ n.preorder, m.Nested) (ht : t ∈ n.tokens) :
    n.tokens.filter (fun u => u.start = t.start) = [t] := by
  have hwide : ∀ u ∈ n.tokens, u.start < u.stop := fun u hu => start_lt_stop_of_mem_tokens hu
  have hapart := pairwise_tokens h
  obtain ⟨before, after, hsplit⟩ := List.append_of_mem ht
  rw [hsplit] at hapart hwide ⊢
  obtain ⟨_, hafter, hbefore⟩ := List.pairwise_append.1 hapart
  have htwide : t.start < t.stop := hwide t (by simp)
  -- A token in front of `t` has ended where `t` starts, and as it is not empty starts earlier.
  have hbefore' : before.filter (fun u => u.start = t.start) = [] := by
    rw [List.filter_eq_nil_iff]
    intro u hu
    have hlt : u.start < u.stop := hwide u (by simp [hu])
    have hle : u.stop ≤ t.start := hbefore u hu t List.mem_cons_self
    simp only [decide_eq_true_eq]
    omega
  have hafter' : after.filter (fun u => u.start = t.start) = [] := by
    rw [List.filter_eq_nil_iff]
    intro u hu
    have hle : t.stop ≤ u.start := (List.pairwise_cons.1 hafter).1 u hu
    simp only [decide_eq_true_eq]
    omega
  rw [List.filter_append, hbefore', List.filter_cons_of_pos (by simp), hafter']
  rfl

/-- A token of a forest belongs to a given node of it, or lies on one side of that node. -/
theorem LaidOut.token_or_apart {ns : List Node} (h : LaidOut ns) {n t : Node}
    (hn : n ∈ preorders ns) (ht : t ∈ tokensOf ns) :
    t ∈ n.tokens ∨ t.stop ≤ n.start ∨ n.stop ≤ t.start := by
  induction ns using forest_induction with
  | nil => cases hn
  | cons m ns below behind =>
    -- The token and the node stand in the same tree of the forest or in two different ones; in
    -- the same one the node may be its root, which then holds the token.
    rw [tokensOf, List.mem_append] at ht
    rcases ht with ht | ht
    · have hmem : t ∈ m.preorder := (mem_tokens_iff.1 ht).1
      rcases mem_preorders_cons.1 hn with rfl | hn | hn
      · exact Or.inl ht
      · rw [tokens_of_inner (isToken_eq_false_of_below hn)] at ht
        exact below h.head_children hn ht
      · exact Or.inr (Or.inl (h.stop_le_start hmem hn))
    · have hmem : t ∈ preorders ns := (mem_tokensOf_iff.1 ht).1
      rcases mem_preorders_cons.1 hn with rfl | hn | hn
      · exact Or.inr (Or.inr (h.stop_le_start n.mem_preorder_self hmem))
      · exact Or.inr (Or.inr (h.stop_le_start (mem_preorder_of_below hn) hmem))
      · exact behind h.tail hn ht

theorem stop_le_of_lastToken? {n t u : Node} (h : ∀ m ∈ n.preorder, m.Nested)
    (hlast : n.lastToken? = some t) (hu : u ∈ n.tokens) (hcomment : u.isComment = false) :
    u.stop ≤ t.stop := by
  have hapart : (n.tokens.filter (!·.isComment)).Pairwise fun a b => a.stop ≤ b.start :=
    (pairwise_tokens h).filter _
  have hmem : u ∈ n.tokens.filter (!·.isComment) := List.mem_filter.2 ⟨hu, by simp [hcomment]⟩
  have ht : t ∈ n.tokens := (List.mem_filter.1 (List.mem_of_getLast? hlast)).1
  obtain ⟨before, hsplit⟩ := List.getLast?_eq_some_iff.1 hlast
  rw [hsplit] at hapart hmem
  rcases List.mem_append.1 hmem with hmem | hmem
  · have hle : u.stop ≤ t.start :=
      (List.pairwise_append.1 hapart).2.2 u hmem t (List.mem_singleton_self t)
    have hlt := start_lt_stop_of_mem_tokens ht
    omega
  · rw [List.mem_singleton.1 hmem]

end Node

namespace Document

open Node (preorders)

variable {d : Document}

/-! ### Spans -/

theorem read_of_reversed {first last : Nat} (h : last < first) :
    d.read ⟨first, last⟩ = .error (.slice (.reversed first last)) := by
  rw [read, if_pos h]

theorem read_of_outOfBounds {first last : Nat} (hle : first ≤ last)
    (h : d.text.utf8ByteSize ≤ last) :
    d.read ⟨first, last⟩ = .error (.slice (.outOfBounds last d.text.utf8ByteSize)) := by
  rw [read, if_neg (by simpa using hle), resolveEnd, if_pos h]
  rfl

theorem read_of_no_token {first last : Nat} (hle : first ≤ last)
    (hlen : last < d.text.utf8ByteSize) (h : ∀ t ∈ d.root.tokens, t.start ≠ last) :
    d.read ⟨first, last⟩ = .error (.slice (.noTokenAt last)) := by
  have hnone : d.root.tokenEnd? last = none := by
    by_contra hne
    obtain ⟨stop, hstop⟩ := Option.ne_none_iff_exists'.1 hne
    obtain ⟨t, ht, hstart, _⟩ :=
      Node.exists_token_of_tokenEnd? Node.exists_token_of_tokenEndOf? hstop
    exact h t ht hstart
  rw [read, if_neg (by simpa using hle), resolveEnd, if_neg (by simpa using hlen), hnone]
  rfl

theorem Measured.read_of_token (h : d.Measured) {first : Nat} {t : Node}
    (hfirst : Text.isBoundary d.text first = true) (ht : t ∈ d.root.tokens)
    (hle : first ≤ t.start) :
    ∃ text, Text.slice? d.text first t.stop = some text ∧
      d.read ⟨first, t.start⟩ = .ok text := by
  have hwide := Node.start_lt_stop_of_mem_tokens ht
  have hstop := (h.isBoundary t (Node.mem_tokens_iff.1 ht).1).2
  have hlen := Text.le_utf8ByteSize_of_isBoundary hstop
  obtain ⟨text, htext, _⟩ := Text.exists_slice? hfirst hstop (by omega)
  refine ⟨text, htext, ?_⟩
  rw [read, if_neg (by simpa using hle), resolveEnd, if_neg (by show ¬ _ ≤ t.start; omega),
    Node.tokenEnd?_of_mem_tokens h.nested ht]
  change d.cut first t.stop = _
  rw [cut, htext]

/-- All that reading a span can come to. -/
theorem Measured.read_cases (h : d.Measured) {first : Nat}
    (hfirst : Text.isBoundary d.text first = true) (last : Nat) :
    (last < first ∧ d.read ⟨first, last⟩ = .error (.slice (.reversed first last))) ∨
      (first ≤ last ∧ d.text.utf8ByteSize ≤ last ∧
        d.read ⟨first, last⟩ = .error (.slice (.outOfBounds last d.text.utf8ByteSize))) ∨
      (first ≤ last ∧ last < d.text.utf8ByteSize ∧ (∀ t ∈ d.root.tokens, t.start ≠ last) ∧
        d.read ⟨first, last⟩ = .error (.slice (.noTokenAt last))) ∨
      (first ≤ last ∧ last < d.text.utf8ByteSize ∧ ∃ t ∈ d.root.tokens, t.start = last ∧
        ∃ text, d.read ⟨first, last⟩ = .ok text) := by
  by_cases hle : first ≤ last
  · by_cases hlen : last < d.text.utf8ByteSize
    · by_cases hnone : ∀ t ∈ d.root.tokens, t.start ≠ last
      · exact Or.inr (Or.inr (Or.inl ⟨hle, hlen, hnone, read_of_no_token hle hlen hnone⟩))
      · simp only [ne_eq, not_forall, not_not] at hnone
        obtain ⟨t, ht, rfl⟩ := hnone
        obtain ⟨text, _, hread⟩ := h.read_of_token hfirst ht hle
        exact Or.inr (Or.inr (Or.inr ⟨hle, hlen, t, ht, rfl, text, hread⟩))
    · have hlen' : d.text.utf8ByteSize ≤ last := by omega
      exact Or.inr (Or.inl ⟨hle, hlen', read_of_outOfBounds hle hlen'⟩)
  · have hlt : last < first := by omega
    exact Or.inl ⟨hlt, read_of_reversed hlt⟩

/-- The search for a token agrees with the list of tokens. What it finds is always a token; in a
tree that is laid out it finds every one, and there is no other at the same byte. So if the text
can be cut at the ends of the nodes, the list of tokens says what any span reads. -/
theorem tokenEnd_read_by_tokens (d : Document) :
    (∀ pos stop, d.root.tokenEnd? pos = some stop →
        ∃ t ∈ d.root.tokens, t.start = pos ∧ t.stop = stop) ∧
      ((∀ n ∈ d.root.preorder, n.Nested) →
        (∀ pos stop, d.root.tokenEnd? pos = some stop ↔
          ∃ t ∈ d.root.tokens, t.start = pos ∧ t.stop = stop) ∧
        ∀ t ∈ d.root.tokens, d.root.tokens.filter (fun u => u.start = t.start) = [t]) ∧
      (d.Measured → ∀ first last, Text.isBoundary d.text first = true →
        d.read ⟨first, last⟩ ≠ .error .badCut ∧
        (d.read ⟨first, last⟩ = .error (.slice (.reversed first last)) ↔ last < first) ∧
        (first ≤ last →
          (d.read ⟨first, last⟩ = .error (.slice (.outOfBounds last d.text.utf8ByteSize)) ↔
            d.text.utf8ByteSize ≤ last)) ∧
        (first ≤ last → last < d.text.utf8ByteSize →
          (d.read ⟨first, last⟩ = .error (.slice (.noTokenAt last)) ↔
            ∀ t ∈ d.root.tokens, t.start ≠ last)) ∧
        (first ≤ last → ∀ t ∈ d.root.tokens, t.start = last →
          ∃ text, Text.slice? d.text first t.stop = some text ∧
            d.read ⟨first, last⟩ = .ok text)) := by
  have hfound : ∀ pos stop, d.root.tokenEnd? pos = some stop →
      ∃ t ∈ d.root.tokens, t.start = pos ∧ t.stop = stop := fun pos stop h =>
    Node.exists_token_of_tokenEnd? Node.exists_token_of_tokenEndOf? h
  refine ⟨hfound, fun hnested => ⟨fun pos stop => ⟨hfound pos stop, ?_⟩, fun t ht =>
    Node.filter_tokens_start hnested ht⟩, fun h first last hfirst => ?_⟩
  · rintro ⟨t, ht, rfl, rfl⟩
    exact Node.tokenEnd?_of_mem_tokens hnested ht
  · have htoken : first ≤ last → ∀ t ∈ d.root.tokens, t.start = last →
        ∃ text, Text.slice? d.text first t.stop = some text ∧
          d.read ⟨first, last⟩ = .ok text := by
      rintro hle t ht rfl
      exact h.read_of_token hfirst ht hle
    rcases h.read_cases hfirst last with ⟨hlt, hread⟩ | ⟨hle, hlen, hread⟩ |
      ⟨hle, hlen, hnone, hread⟩ | ⟨hle, hlen, t, ht, hstart, text, hread⟩
    · exact ⟨by simp [hread], iff_of_true hread hlt, by omega, by omega, htoken⟩
    · exact ⟨by simp [hread], iff_of_false (by simp [hread]) (by omega),
        fun _ => iff_of_true hread hlen, by omega, htoken⟩
    · exact ⟨by simp [hread], iff_of_false (by simp [hread]) (by omega),
        fun _ => iff_of_false (by simp [hread]) (by omega), fun _ _ => iff_of_true hread hnone,
        htoken⟩
    · exact ⟨by simp [hread], iff_of_false (by simp [hread]) (by omega),
        fun _ => iff_of_false (by simp [hread]) (by omega),
        fun _ _ => iff_of_false (by simp [hread]) fun hnone => hnone t ht hstart, htoken⟩

/-- A statement behind whose only name stand a comment, an empty node and, one level up, another
comment. -/
def commentedStatement : Node :=
  ⟨.other "expression_statement", 0, 12, true, false,
    [⟨.other "call_expression", 0, 7, true, false,
        [.token .identifier 0 2, .token .comment 3 7, ⟨.identifier, 7, 7, true, true, []⟩]⟩,
      .token .comment 8 12]⟩

def commented : Document where
  text := "é /**/ //é;"
  root := ⟨.other "translation_unit", 0, 13, true, false,
    [commentedStatement, .token (.other ";") 12 13]⟩

theorem tokenEnd_read_by_tokens_commented :
    commented.Measured ∧ commented.root.tokenEnd? 3 = some 7 ∧
      commented.read ⟨0, 12⟩ = .ok "é /**/ //é;" ∧
      commented.read ⟨0, 7⟩ = .error (.slice (.noTokenAt 7)) := by
  have hmeasured : commented.Measured := by decide
  obtain ⟨_, hfind, hread⟩ := tokenEnd_read_by_tokens commented
  have htokens : commented.root.tokens = [.token .identifier 0 2, .token .comment 3 7,
      .token .comment 8 12, .token (.other ";") 12 13] := rfl
  refine ⟨hmeasured, ((hfind hmeasured.nested).1 3 7).2 ?_, ?_, ?_⟩
  · exact ⟨.token .comment 3 7, by simp [htokens], rfl, rfl⟩
  · obtain ⟨_, _, _, _, htoken⟩ := hread hmeasured 0 12 (by decide)
    obtain ⟨text, htext, hok⟩ :=
      htoken (by decide) (.token (.other ";") 12 13) (by simp [htokens]) rfl
    rw [hok, ← Option.some.inj htext]
    rfl
  · obtain ⟨_, _, _, hnone, _⟩ := hread hmeasured 0 7 (by decide)
    exact (hnone (by decide) (by decide)).2 (by decide)

/-! ### Nodes -/

/-- A node is read without the comments behind it. The two searches for its end meet in its last
token that is no comment, and whatever else of it the text holds belongs to no token of the
tree but to comments. -/
theorem readNode_up_to_lastToken (h : d.Tokenized) {n : Node}
    (hn : n ∈ preorders d.root.children) (hsolid : n.isSolid = true) :
    ∃ t text rest, n.lastToken? = some t ∧ n.lastTokenStart = t.start ∧
      d.readNode n = .ok text ∧ Text.slice? d.text n.start t.stop = some text ∧
      Text.slice? d.text t.stop n.stop = some rest ∧
      Text.slice? d.text n.start n.stop = some (text ++ rest) ∧
      ∀ u ∈ d.root.tokens, u.isComment = false → u.stop ≤ t.stop ∨ n.stop ≤ u.start := by
  -- One search goes down from the node, the other one from the root.
  obtain ⟨t, hlast, hstart⟩ := h.exists_lastToken hn hsolid
  obtain ⟨t', hlast', hspans⟩ := h.exists_spans_node hn hsolid
  obtain rfl : t' = t := Option.some.inj (hlast'.symm.trans hlast)
  have hstop := (h.isBoundary n (Node.mem_preorder_of_below hn)).2
  obtain ⟨text, htext, _⟩ :=
    Text.exists_slice? hspans.first_isBoundary hspans.stop_isBoundary hspans.first_le_stop
  obtain ⟨rest, hrest, _⟩ := Text.exists_slice? hspans.stop_isBoundary hstop hspans.stop_le_stop
  refine ⟨t', text, rest, hlast, hstart, ?_, htext, hrest, Text.slice?_append htext hrest, ?_⟩
  · rw [readNode, hspans.read_eq, cut, htext]
  · intro u hu hcomment
    have hroot := Node.isToken_eq_false_of_below hn
    rw [Node.tokens_of_inner hroot] at hu
    rcases (Node.LaidOut.of_nested h.nested).token_or_apart hn hu with hu | hle | hle
    · exact Or.inl (Node.stop_le_of_lastToken? (h.nested_below hn) hlast hu hcomment)
    · have hfirst : n.start ≤ t'.stop := hspans.first_le_stop
      exact Or.inl (by omega)
    · exact Or.inr hle

theorem readNode_up_to_lastToken_commented :
    commented.Tokenized ∧ commentedStatement.lastTokenStart = 0 ∧
      commented.readNode commentedStatement = .ok "é" ∧
      Text.slice? commented.text 2 12 = some " /**/ //é" := by
  have htokenized : commented.Tokenized := by decide
  obtain ⟨t, text, rest, hlast, hstart, hread, htext, hrest, _⟩ :=
    readNode_up_to_lastToken htokenized (Node.mem_preorders_head commentedStatement _) (by decide)
  obtain rfl : Node.token .identifier 0 2 = t := Option.some.inj hlast
  refine ⟨htokenized, hstart, ?_, ?_⟩
  · rw [hread, ← Option.some.inj htext]
    rfl
  · rfl

end Document

end Downlevel
