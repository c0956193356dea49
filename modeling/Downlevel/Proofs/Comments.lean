import Downlevel.Proofs.Pass
import Downlevel.Proofs.Uncommented

/-!
# Comments do not count

Each step of a pass finds the same in a well-formed document and in the one
without the comments of its tree, though the text still holds them: the packs, the
constructs, the ends of their tokens, and so the edits. Therefore a pass makes the
same edits in both, or is refused for the same reason.
-/

namespace Downlevel

namespace Document

open Node (preorders dropComments)

/-- The document without the comments of its tree. Its text still holds them. -/
def withoutComments (d : Document) : Document := ⟨d.text, d.root.withoutComments⟩

variable {d : Document} {packs : List String}

theorem Tokenized.keepsTokens (h : d.Tokenized) : Node.KeepsTokens d.root.children := by
  intro n hn hsolid
  cases htoken : n.isToken with
  | true => exact Node.isToken_withoutComments_of_isToken htoken
  | false =>
    obtain ⟨c, hc, hcsolid⟩ := h.solid_child n hn hsolid htoken
    have hmem : c.withoutComments ∈ n.withoutComments.children := by
      rw [Node.children_withoutComments, Node.mem_dropComments]
      exact ⟨c, hc, (Node.isSolid_iff.1 hcsolid).1, rfl⟩
    exact Node.isToken_eq_false_of_below (Node.mem_preorders_of_mem hmem)

/-! ### Well-formed documents stay so -/

/-- Every node that is left was there before, with its comments; the root stays whatever it is. -/
theorem exists_of_mem_withoutComments {m : Node} (h : m ∈ d.withoutComments.root.preorder) :
    ∃ n ∈ d.root.preorder, n.withoutComments = m := by
  rw [Node.preorder_eq, List.mem_cons] at h
  rcases h with rfl | h
  · exact ⟨d.root, Node.mem_preorder_self _, rfl⟩
  · rw [withoutComments, Node.children_withoutComments] at h
    obtain ⟨n, hn, _, rfl⟩ := Node.exists_of_mem_preorders_dropComments h
    exact ⟨n, Node.mem_preorder_of_below hn, rfl⟩

theorem Measured.laidOut_children (h : d.Measured) {n : Node} (hn : n ∈ d.root.preorder) :
    Node.LaidOut n.children := by
  rw [Node.preorder_eq, List.mem_cons] at hn
  rcases hn with rfl | hn
  · exact Node.LaidOut.of_nested h.nested
  · exact (Node.LaidOut.of_nested h.nested).children hn

theorem Measured.nested_withoutComments (h : d.Measured) {n : Node} (hn : n ∈ d.root.preorder) :
    n.withoutComments.Nested := by
  have hnested := h.nested n hn
  refine ⟨by simpa using hnested.start_le_stop, fun c hc => ?_, ?_⟩
  · rw [Node.children_withoutComments, Node.mem_dropComments] at hc
    obtain ⟨c, hc, _, rfl⟩ := hc
    simpa using hnested.covers c hc
  · have hapart := (h.laidOut_children hn).apart.filter (!·.isComment)
    rw [Node.children_withoutComments, Node.dropComments_eq]
    refine (List.pairwise_map.2 (hapart.imp fun hab => ?_)).isChain
    simpa using hab

theorem WellFormed.withoutComments (h : d.WellFormed) : d.withoutComments.WellFormed where
  nested m hm := by
    obtain ⟨n, hn, rfl⟩ := exists_of_mem_withoutComments hm
    exact h.nested_withoutComments hn
  isBoundary m hm := by
    obtain ⟨n, hn, rfl⟩ := exists_of_mem_withoutComments hm
    rw [Node.start_withoutComments, Node.stop_withoutComments]
    exact h.isBoundary n hn
  comment_isToken m hm hkind := by
    obtain ⟨n, hn, rfl⟩ := exists_of_mem_withoutComments hm
    rw [Node.kind_withoutComments] at hkind
    exact Node.isToken_withoutComments_of_isToken (h.comment_isToken n hn hkind)
  solid_child m hm hsolid htoken := by
    obtain ⟨n, hn, _, rfl⟩ := Node.exists_of_mem_preorders_dropComments
      (Node.children_withoutComments d.root ▸ hm)
    rw [Node.isSolid_withoutComments] at hsolid
    rw [h.keepsTokens n hn hsolid] at htoken
    obtain ⟨c, hc, hcsolid⟩ := h.solid_child n hn hsolid htoken
    refine ⟨c.withoutComments, ?_, by simpa using hcsolid⟩
    rw [Node.children_withoutComments, Node.mem_dropComments]
    exact ⟨c, hc, (Node.isSolid_iff.1 hcsolid).1, rfl⟩
  closeParen_isToken m hm hkind := by
    obtain ⟨n, hn, rfl⟩ := exists_of_mem_withoutComments hm
    rw [Node.kind_withoutComments] at hkind
    exact Node.isToken_withoutComments_of_isToken (h.closeParen_isToken n hn hkind)
  part_isWide m hm hkind c hc := by
    obtain ⟨n, hn, rfl⟩ := exists_of_mem_withoutComments hm
    rw [Node.kind_withoutComments] at hkind
    rw [Node.parts_withoutComments, List.mem_map] at hc
    obtain ⟨c, hc, rfl⟩ := hc
    simpa using h.part_isWide n hn hkind c hc

/-! ### Packs -/

theorem packTokens_of_length_le {ns : List Node} (h : ns.length ≤ 1) : packTokens ns = [] := by
  rcases ns with _ | ⟨a, _ | ⟨b, rest⟩⟩
  · rfl
  · rfl
  · simp at h

theorem Tokenized.packs_withoutComments (h : d.Tokenized) :
    d.withoutComments.packs = d.packs := by
  have hsame : Node.solidTokens (dropComments d.root.children) =
      Node.solidTokens d.root.children :=
    Node.solidTokens_dropComments (Node.LaidOut.of_nested h.nested) h.keepsTokens
      fun n hn => h.comment_isToken n (Node.mem_preorder_of_below hn)
  have htokens : packTokens (d.root.withoutComments.tokens.filter (!·.isComment)) =
      packTokens (d.root.tokens.filter (!·.isComment)) := by
    cases htoken : d.root.isToken with
    | true => rw [Node.withoutComments_of_isToken htoken]
    | false =>
      rw [Node.tokens_of_inner htoken]
      cases htoken' : d.root.withoutComments.isToken with
      | false =>
        rw [Node.tokens_of_inner htoken', Node.children_withoutComments]
        exact congrArg packTokens hsame
      | true =>
        -- The root has become a token, but one token makes no pack.
        have hnone : Node.solidTokens d.root.children = [] := by
          rw [← hsame, Node.dropComments_children_of_isToken htoken']
          rfl
        have hlen : (d.root.withoutComments.tokens.filter (!·.isComment)).length ≤ 1 := by
          refine (List.length_filter_le _ _).trans ?_
          rw [Node.tokens_of_isToken htoken']
          split_ifs
          · exact Nat.le_refl 1
          · exact Nat.zero_le 1
        rw [packTokens_of_length_le hlen]
        exact (congrArg packTokens hnone).symm
  simp only [packs, Document.withoutComments, htokens]
  rfl

theorem exists_of_mem_mapM {α β : Type} {f : α → Except Fault β} {xs : List α} {ys : List β}
    (h : xs.mapM f = .ok ys) {y : β} (hy : y ∈ ys) : ∃ x ∈ xs, f x = .ok y := by
  induction xs generalizing ys with
  | nil =>
    cases h
    cases hy
  | cons x xs ih =>
    rw [List.mapM_cons] at h
    obtain ⟨z, hz, h⟩ := bind_eq_ok h
    obtain ⟨zs, hzs, h⟩ := bind_eq_ok h
    cases h
    rcases List.mem_cons.1 hy with rfl | hy
    · exact ⟨x, List.mem_cons_self, hz⟩
    · obtain ⟨x', hx', hy⟩ := ih hzs hy
      exact ⟨x', List.mem_cons_of_mem x hx', hy⟩

/-- Packs are named by tokens, and tokens are not empty. -/
theorem empty_notMem_packs (h : d.packs = .ok packs) : "" ∉ packs := by
  intro hempty
  obtain ⟨names, hnames, h⟩ := bind_eq_ok h
  cases h
  obtain ⟨t, ht, hcut⟩ := exists_of_mem_mapM hnames (List.mem_eraseDups.1 hempty)
  have htoken := (List.mem_filter.1 (packTokens_subset _ ht)).1
  have hwide := Node.start_lt_stop_of_mem_tokens htoken
  have hslice : Text.slice? d.text t.start t.stop = some "" := by
    rw [cut] at hcut
    split at hcut
    · rename_i s hs
      cases hcut
      exact hs
    · cases hcut
  obtain ⟨_, hstop, _, hbytes⟩ := Text.slice?_eq_some_iff.1 hslice
  have hle := Text.le_utf8ByteSize_of_isBoundary hstop
  have hsize := congrArg ByteArray.size hbytes
  rw [ByteArray.size_extract, String.size_toByteArray, String.size_toByteArray] at hsize
  have hzero : "".utf8ByteSize = 0 := rfl
  omega

theorem holdsPack_of_isToken {n : Node} (h : n.isToken = true) :
    d.holdsPack packs n = if n.kind.isName then do
      let name ← d.cut n.start n.stop
      return packs.contains name
    else .ok false := by
  cases n with
  | mk kind start stop named missing children =>
    obtain rfl : children = [] := Node.isToken_iff.1 h
    rw [holdsPack]

theorem holdsPack_of_inner {n : Node} (h : n.isToken = false) :
    d.holdsPack packs n =
      if n.kind.expandsPacks ||
          n.kind == .sizeofExpression && n.children.any (·.kind == .ellipsis) then .ok false
      else d.anyHoldsPack packs n.children := by
  cases n with
  | mk kind start stop named missing children =>
    cases children with
    | nil => cases h
    | cons c cs => rw [holdsPack]

theorem holdsPack_of_comment {n : Node} (htoken : n.isToken = true) (h : n.isComment = true) :
    d.holdsPack packs n = .ok false := by
  rw [holdsPack_of_isToken htoken, Node.isComment_iff.1 h]
  rfl

theorem Tokenized.holdsPack_of_children (h : d.Tokenized) (hpacks : "" ∉ packs) {n : Node}
    (hn : n ∈ preorders d.root.children) (hcomment : n.isComment = false)
    (hchildren : d.withoutComments.anyHoldsPack packs (dropComments n.children) =
      d.anyHoldsPack packs n.children) :
    d.withoutComments.holdsPack packs n.withoutComments = d.holdsPack packs n := by
  cases htoken : n.isToken with
  | true =>
    rw [Node.withoutComments_of_isToken htoken, holdsPack_of_isToken htoken,
      holdsPack_of_isToken htoken]
    rfl
  | false =>
    rw [holdsPack_of_inner htoken]
    cases htoken' : n.withoutComments.isToken with
    | false =>
      rw [holdsPack_of_inner htoken', Node.kind_withoutComments, Node.children_withoutComments,
        hchildren, Node.any_dropComments (fun m => by rw [Node.kind_withoutComments])
          fun m hm => by rw [eq_of_beq hm]; rfl]
    | true =>
      -- The node has become a token. It is empty, and no pack has an empty name.
      have hnone : d.anyHoldsPack packs n.children = .ok false := by
        rw [← hchildren, Node.dropComments_children_of_isToken htoken', anyHoldsPack]
      have hwide := h.keepsTokens.isWide_eq_false hn hcomment htoken htoken'
      have hn' : n ∈ d.root.preorder := Node.mem_preorder_of_below hn
      have hempty : n.stop = n.start := by
        have := (h.nested n hn').start_le_stop
        simp only [Node.isWide, decide_eq_false_iff_not] at hwide
        omega
      have hcut : d.withoutComments.cut n.start n.stop = .ok "" := by
        rw [hempty, cut]
        simp only [Document.withoutComments, Text.slice?_self (h.isBoundary n hn').1]
      rw [hnone, ite_self, holdsPack_of_isToken htoken', Node.start_withoutComments,
        Node.stop_withoutComments, hcut]
      split_ifs
      · exact congrArg Except.ok (by simpa using hpacks)
      · rfl

theorem Tokenized.anyHoldsPack_dropComments (h : d.Tokenized) (hpacks : "" ∉ packs)
    {ns : List Node} (hns : ∀ n ∈ preorders ns, n ∈ preorders d.root.children) :
    d.withoutComments.anyHoldsPack packs (dropComments ns) = d.anyHoldsPack packs ns := by
  induction ns using Node.forest_induction with
  | nil => rfl
  | cons n ns below behind =>
    have hn : n ∈ preorders d.root.children := hns n (Node.mem_preorders_head n ns)
    have hbelow := below fun m hm => hns m (Node.mem_preorders_cons_of_below hm)
    have hbehind := behind fun m hm => hns m (Node.mem_preorders_cons_of_behind hm)
    cases hcomment : n.isComment with
    | true =>
      have htoken := h.comment_isToken n (Node.mem_preorder_of_below hn)
        (Node.isComment_iff.1 hcomment)
      rw [Node.dropComments_cons_of_pos hcomment, hbehind, anyHoldsPack,
        holdsPack_of_comment htoken hcomment]
    | false =>
      rw [Node.dropComments_cons_of_neg hcomment, anyHoldsPack, anyHoldsPack, hbehind,
        h.holdsPack_of_children hpacks hn hcomment hbelow]

theorem Tokenized.holdsPack_withoutComments (h : d.Tokenized) (hpacks : "" ∉ packs) {n : Node}
    (hn : n ∈ preorders d.root.children) (hcomment : n.isComment = false) :
    d.withoutComments.holdsPack packs n.withoutComments = d.holdsPack packs n :=
  h.holdsPack_of_children hpacks hn hcomment <|
    h.anyHoldsPack_dropComments hpacks fun _ hm => Node.mem_preorders_of_below hn hm

/-! ### Constructs -/

theorem Tokenized.direction_withoutComments (h : d.Tokenized) (hpacks : "" ∉ packs)
    {n left right : Node} (hleft : left ∈ preorders d.root.children)
    (hright : right ∈ preorders d.root.children) (hleft' : left.isComment = false)
    (hright' : right.isComment = false) :
    d.withoutComments.direction packs n.withoutComments left.withoutComments
      right.withoutComments = d.direction packs n left right := by
  simp only [direction, h.holdsPack_withoutComments hpacks hleft hleft',
    h.holdsPack_withoutComments hpacks hright hright', Node.isPlainLiteral_withoutComments,
    Node.start_withoutComments, Node.stop_withoutComments]
  rfl

theorem operatorAt_withoutComments (token : Node) :
    d.withoutComments.operatorAt token.withoutComments = d.operatorAt token := by
  simp only [operatorAt, Node.start_withoutComments, Node.stop_withoutComments]
  rfl

theorem Tokenized.foldOf_withoutComments (h : d.Tokenized) (hpacks : "" ∉ packs) (n : Node)
    (span : Span) {inner : List Node}
    (hinner : ∀ c ∈ inner, c ∈ preorders d.root.children ∧ c.isComment = false) :
    d.withoutComments.foldOf packs n.withoutComments span (inner.map Node.withoutComments) =
      d.foldOf packs n span inner := by
  have hmalformed := n.malformed_withoutComments
  -- Only three parts or five make a fold.
  rcases inner with _ | ⟨a, _ | ⟨b, _ | ⟨c, _ | ⟨e, _ | ⟨f, _ | ⟨g, rest⟩⟩⟩⟩⟩⟩
  · exact congrArg Except.error hmalformed
  · exact congrArg Except.error hmalformed
  · exact congrArg Except.error hmalformed
  · simp only [List.map, foldOf, operatorAt_withoutComments, hmalformed,
      Node.kind_withoutComments, Node.span_withoutComments]
  · exact congrArg Except.error hmalformed
  · obtain ⟨ha, ha'⟩ := hinner a (by simp)
    obtain ⟨hf, hf'⟩ := hinner f (by simp)
    simp only [List.map, foldOf, operatorAt_withoutComments, hmalformed,
      Node.kind_withoutComments, Node.span_withoutComments,
      h.direction_withoutComments hpacks ha hf ha' hf']
  · exact congrArg Except.error hmalformed

theorem Tokenized.fold_withoutComments (h : d.Tokenized) (hpacks : "" ∉ packs) {n : Node}
    (hn : n ∈ preorders d.root.children) :
    d.withoutComments.fold packs n.withoutComments = d.fold packs n := by
  have hinner : ∀ c ∈ n.parts.tail.dropLast,
      c ∈ preorders d.root.children ∧ c.isComment = false := fun c hc => by
    have hpart : c ∈ n.parts := List.mem_of_mem_tail ((List.dropLast_sublist _).subset hc)
    obtain ⟨hchild, hc⟩ := List.mem_filter.1 hpart
    exact ⟨Node.mem_preorders_of_child hn hchild, by simpa using (Bool.and_eq_true_iff.1 hc).1⟩
  have hfoldOf := fun span => h.foldOf_withoutComments hpacks n span hinner
  rw [fold, fold, Node.parts_withoutComments, List.head?_map, List.getLast?_map, List.length_map,
    ← List.map_tail, ← List.map_dropLast, Node.malformed_withoutComments]
  cases n.parts.head? with
  | none => rfl
  | some opening =>
    cases n.parts.getLast? with
    | none => rfl
    | some closing =>
      simp only [Option.map_some, Node.kind_withoutComments, Node.start_withoutComments, hfoldOf]

theorem Tokenized.construct_withoutComments (h : d.Tokenized) (hpacks : "" ∉ packs) {n : Node}
    (hn : n ∈ preorders d.root.children) :
    d.withoutComments.construct packs n.withoutComments = d.construct packs n := by
  rw [construct, construct, Node.kind_withoutComments, h.fold_withoutComments hpacks hn,
    Node.assertion_withoutComments]

/-! ### Lowering -/

section Lowering

variable {m : Node} {s : Span} {stop : Nat} (h : d.Tokenized)
  (hinner : d.withoutComments.root.isToken = false)

include h hinner

/-- What can be read without the comments can be read with them, and ends in the same token. -/
theorem Tokenized.spans_of_withoutComments (hs : d.withoutComments.Spans m s stop) :
    d.Spans m s stop := by
  have htoken : d.root.isToken = false := by
    by_contra htoken
    have htoken' : d.root.isToken = true := by simpa using htoken
    rw [Document.withoutComments, Node.isToken_withoutComments_of_isToken htoken'] at hinner
    cases hinner
  have hend := hs.tokenEnd_eq
  rw [Node.tokenEnd?_of_inner hinner] at hend
  refine { hs with tokenEnd_eq := ?_ }
  rw [Node.tokenEnd?_of_inner htoken]
  refine Node.tokenEndOf?_of_dropComments (Node.LaidOut.of_nested h.nested) h.keepsTokens ?_
  rw [← Node.children_withoutComments]
  exact hend

theorem Tokenized.resolveEnd_withoutComments (hs : d.withoutComments.CanRead m s) :
    d.withoutComments.resolveEnd s.last = d.resolveEnd s.last := by
  obtain ⟨stop, hs⟩ := hs
  rw [hs.resolveEnd_eq, (h.spans_of_withoutComments hinner hs).resolveEnd_eq]

theorem Tokenized.read_withoutComments (hs : d.withoutComments.CanRead m s) :
    d.withoutComments.read s = d.read s := by
  rw [read, read, h.resolveEnd_withoutComments hinner hs]
  rfl

theorem Tokenized.lower_withoutComments {c : Construct} (hc : d.withoutComments.Legible m c) :
    d.withoutComments.lower c = d.lower c := by
  cases c with
  | other => rfl
  | fold f =>
    obtain ⟨hspan, hpattern, hinit⟩ := hc
    have hread : f.init.mapM d.withoutComments.read = f.init.mapM d.read := by
      cases hi : f.init with
      | none => rfl
      | some i =>
        change some <$> d.withoutComments.read i = some <$> d.read i
        rw [h.read_withoutComments hinner (hinit i hi)]
    simp only [lower, lowerFold, h.read_withoutComments hinner hpattern, hread,
      h.resolveEnd_withoutComments hinner hspan]
  | assertion a =>
    obtain ⟨hspan, hcondition⟩ := hc
    simp only [lower, lowerAssertion, h.read_withoutComments hinner hcondition,
      h.resolveEnd_withoutComments hinner hspan]

end Lowering

/-! ### Passes -/

theorem visit_of_isComment {n : Node} (h : n.isComment = true) (p : Progress) :
    d.visit packs n p = .ok ({ p with visited := p.visited + 1 }, .enter) := by
  have hother : d.construct packs n = .ok .other := by rw [construct, Node.isComment_iff.1 h]
  exact visit_of_kept hother rfl p

/-- A visit does the same without the comments, only that fewer nodes were visited before. -/
theorem WellFormed.visit_withoutComments (h : d.WellFormed) (hpacks : "" ∉ packs) {n : Node}
    (hn : n ∈ preorders d.root.children) (hcomment : n.isComment = false) {p q : Progress}
    (hbuffer : q.buffer = p.buffer) :
    d.withoutComments.visit packs n.withoutComments q =
      (d.visit packs n p).map fun r => ({ r.1 with visited := q.visited + 1 }, r.2) := by
  have hn' : n.withoutComments ∈ preorders d.withoutComments.root.children := by
    rw [Document.withoutComments, Node.children_withoutComments]
    exact Node.mem_preorders_dropComments
      (fun m hm => h.comment_isToken m (Node.mem_preorder_of_below hm)) hn hcomment
  have hinner := Node.isToken_eq_false_of_below hn'
  have hlegible := h.withoutComments.yields_construct hn' packs
  rw [h.construct_withoutComments hpacks hn] at hlegible
  rw [visit, visit, h.construct_withoutComments hpacks hn]
  cases hc : d.construct packs n with
  | error f => rfl
  | ok c =>
    rw [hc] at hlegible
    have hlowered := yields_lower (n := n.withoutComments) hlegible
    have hlower := h.lower_withoutComments hinner hlegible
    rw [hlower] at hlowered
    simp only [bind, Except.bind, hlower, hbuffer]
    cases ho : d.lower c with
    | error f => rfl
    | ok o =>
      rw [ho] at hlowered
      cases o with
      | kept => rfl
      | edited e =>
        dsimp only
        cases p.buffer.record e with
        | error f => rfl
        | ok b => rfl
      | rejected op span =>
        simp only [h.read_withoutComments hinner hlowered]
        cases d.read span with
        | error f => rfl
        | ok whole => rfl

/-- A walk leaves the same edits without the comments, or meets the same fault. -/
theorem WellFormed.walk_dropComments (h : d.WellFormed) (hpacks : "" ∉ packs)
    {stack : List Node} {p q : Progress} (hstack : ∀ n ∈ stack, n ∈ preorders d.root.children)
    (hbuffer : q.buffer = p.buffer) :
    (d.withoutComments.walk packs (dropComments stack) q).map (·.buffer) =
      (d.walk packs stack p).map (·.buffer) := by
  induction stack, p using walk.induct d packs generalizing q with
  | case1 p =>
    rw [dropComments, walk_nil, walk_nil]
    exact congrArg Except.ok hbuffer
  | case2 p n stack f hvisit =>
    have hn := hstack n List.mem_cons_self
    rw [walk_cons_of_error hvisit]
    cases hcomment : n.isComment with
    | true =>
      rw [visit_of_isComment hcomment] at hvisit
      cases hvisit
    | false =>
      have hvisit' := h.visit_withoutComments hpacks hn hcomment hbuffer
      rw [hvisit] at hvisit'
      rw [Node.dropComments_cons_of_neg hcomment, walk_cons_of_error hvisit']
  | case3 p n stack p' hvisit ih =>
    have hn := hstack n List.mem_cons_self
    have hopened : ∀ m ∈ n.children ++ stack, m ∈ preorders d.root.children := fun m hm => by
      rcases List.mem_append.1 hm with hm | hm
      · exact Node.mem_preorders_of_child hn hm
      · exact hstack m (List.mem_cons_of_mem n hm)
    rw [walk_cons_of_enter hvisit]
    cases hcomment : n.isComment with
    | true =>
      -- Nothing stands below a comment, so the walk goes on to what is left of the stack.
      have htoken := h.comment_isToken n (Node.mem_preorder_of_below hn)
        (Node.isComment_iff.1 hcomment)
      rw [visit_of_isComment hcomment] at hvisit
      cases hvisit
      rw [Node.dropComments_cons_of_pos hcomment, ← ih hopened hbuffer,
        Node.isToken_iff.1 htoken, List.nil_append]
    | false =>
      have hvisit' := h.visit_withoutComments hpacks hn hcomment hbuffer
      rw [hvisit] at hvisit'
      rw [Node.dropComments_cons_of_neg hcomment, walk_cons_of_enter hvisit',
        Node.children_withoutComments, ← Node.dropComments_append]
      exact ih hopened rfl
  | case4 p n stack p' hvisit ih =>
    have hn := hstack n List.mem_cons_self
    rw [walk_cons_of_skip hvisit]
    cases hcomment : n.isComment with
    | true =>
      rw [visit_of_isComment hcomment] at hvisit
      cases hvisit
    | false =>
      have hvisit' := h.visit_withoutComments hpacks hn hcomment hbuffer
      rw [hvisit] at hvisit'
      rw [Node.dropComments_cons_of_neg hcomment, walk_cons_of_skip hvisit']
      exact ih (fun m hm => hstack m (List.mem_cons_of_mem n hm)) rfl

theorem WellFormed.run_withoutComments (h : d.WellFormed) (hpacks : "" ∉ packs) :
    (d.withoutComments.run packs d.withoutComments.start).map (·.buffer) =
      (d.run packs d.start).map (·.buffer) := by
  rw [run_eq_walk, run_eq_walk, Document.withoutComments, Node.children_withoutComments]
  exact h.walk_dropComments hpacks (fun n hn => Node.mem_preorders_of_mem hn) rfl

theorem WellFormed.pass_withoutComments_of_ok (h : d.WellFormed) {report : PassReport}
    (hpass : d.pass = .ok report) :
    ∃ visited, d.withoutComments.pass = .ok { report with visited } := by
  obtain ⟨packs, p, hpacks, hrun, hresult, hedits, _⟩ := pass_eq_ok_iff.1 hpass
  have hmap := h.run_withoutComments (empty_notMem_packs hpacks)
  rw [hrun] at hmap
  obtain ⟨q, hq, (hbuffer : q.buffer = p.buffer)⟩ := map_eq_ok hmap
  rw [← hbuffer] at hresult hedits
  exact ⟨q.visited, pass_eq_ok_iff.2
    ⟨packs, q, h.packs_withoutComments.trans hpacks, hq, hresult, hedits, rfl⟩⟩

theorem WellFormed.pass_withoutComments_of_error (h : d.WellFormed) {f : Fault}
    (hpass : d.pass = .error f) : d.withoutComments.pass = .error f := by
  cases hpacks : d.packs with
  | error g =>
    rw [pass_of_packs_eq_error hpacks] at hpass
    rw [← hpass]
    exact pass_of_packs_eq_error (h.packs_withoutComments.trans hpacks)
  | ok packs =>
    have hmap := h.run_withoutComments (empty_notMem_packs hpacks)
    cases hrun : d.run packs d.start with
    | error g =>
      rw [pass_of_run_eq_error hpacks hrun] at hpass
      rw [hrun] at hmap
      rw [← hpass]
      refine pass_of_run_eq_error (h.packs_withoutComments.trans hpacks) ?_
      cases hrun' : d.withoutComments.run packs d.withoutComments.start with
      | error g' =>
        rw [hrun'] at hmap
        exact congrArg Except.error (Except.error.inj hmap)
      | ok q =>
        rw [hrun'] at hmap
        cases hmap
    | ok p =>
      -- A run that ends well over a well-formed document leaves edits that can be made.
      obtain ⟨_, text, htext, _⟩ := h.exists_result? hrun
      have hok : d.pass = .ok ⟨text, p.buffer.sorted, p.visited⟩ :=
        pass_eq_ok_iff.2 ⟨packs, p, hpacks, hrun, htext, rfl, rfl⟩
      rw [hok] at hpass
      cases hpass

/-- The comments of a well-formed document have no say in what a pass makes of it: without them it
is refused for the same reason, or the same edits are made in the same text. -/
theorem pass_withoutComments (h : d.WellFormed) :
    (∃ f, f.isRefusal = true ∧ d.pass = .error f ∧ d.withoutComments.pass = .error f) ∨
      ∃ report visited, d.pass = .ok report ∧
        d.withoutComments.pass = .ok { report with visited } := by
  have hyields := h.yields_pass
  cases hpass : d.pass with
  | ok report =>
    obtain ⟨visited, hpass'⟩ := h.pass_withoutComments_of_ok hpass
    exact Or.inr ⟨report, visited, rfl, hpass'⟩
  | error f =>
    rw [hpass] at hyields
    exact Or.inl ⟨f, hyields.isRefusal, rfl, h.pass_withoutComments_of_error hpass⟩

theorem pass_withoutComments_foldInFold :
    foldInFold.WellFormed ∧ (∃ n ∈ foldInFold.root.preorder, n.isComment = true) ∧
      (∀ n ∈ foldInFold.withoutComments.root.preorder, n.isComment = false) ∧
      ∃ visited, foldInFold.withoutComments.pass = .ok { foldInFoldReport with visited } := by
  have hwell : foldInFold.WellFormed := by decide
  refine ⟨hwell, by decide, by decide, ?_⟩
  rcases pass_withoutComments hwell with ⟨f, _, hpass, _⟩ | ⟨report, visited, hpass, hpass'⟩
  · rw [pass_foldInFold] at hpass
    cases hpass
  · rw [pass_foldInFold] at hpass
    cases hpass
    exact ⟨visited, hpass'⟩

end Document

end Downlevel
