import Downlevel.Lowering
import Downlevel.Proofs.Layout
import Downlevel.Proofs.Splice

/-!
# Constructs of well-formed documents

In a well-formed document every part of the text that a construct asks for can
be read, so only the construct itself can be refused: its shape, its operator or
its direction. What comes of it is an edit inside the node that it was read off.
-/

namespace Downlevel

/-- Whether the fault is about a construct, not about a text or a tree that is out of order. -/
def Fault.isRefusal : Fault → Bool
  | .unsupported .. | .unnamed .. | .unknownOperator .. | .malformed .. | .ambiguous .. => true
  | .badCut | .slice _ | .edit _ | .syntaxErrors _ | .unsettled _ => false

namespace Document

open Node (preorders)

variable {α β : Type} {d : Document}

structure Refuses (d : Document) (f : Fault) : Prop where
  isRefusal : f.isRefusal = true
  offset_le : ∃ o, f.offset? = some o ∧ o ≤ d.text.utf8ByteSize

/-- The computation ends in a result with the property `Q`, or it refuses a construct. -/
def Yields (d : Document) (x : Except Fault α) (Q : α → Prop) : Prop :=
  match x with
  | .ok a => Q a
  | .error f => d.Refuses f

namespace Yields

theorem bind {x : Except Fault α} {f : α → Except Fault β} {P : α → Prop} {Q : β → Prop}
    (hx : d.Yields x P) (hf : ∀ a, P a → d.Yields (f a) Q) : d.Yields (x >>= f) Q := by
  cases x with
  | error e => exact hx
  | ok a => exact hf a hx

theorem map {x : Except Fault α} {f : α → β} {Q : β → Prop}
    (hx : d.Yields x fun a => Q (f a)) : d.Yields (x.map f) Q := by
  cases x with
  | error e => exact hx
  | ok a => exact hx

theorem mono {x : Except Fault α} {P Q : α → Prop} (hx : d.Yields x P)
    (h : ∀ a, P a → Q a) : d.Yields x Q := by
  cases x with
  | error e => exact hx
  | ok a => exact h a hx

theorem of_eq_ok {x : Except Fault α} {Q : α → Prop} {a : α} (hx : d.Yields x Q)
    (h : x = .ok a) : Q a := by
  subst h
  exact hx

theorem mapM {xs : List α} {f : α → Except Fault β}
    (hf : ∀ a ∈ xs, d.Yields (f a) fun _ => True) : d.Yields (xs.mapM f) fun _ => True := by
  induction xs with
  | nil => trivial
  | cons a as ih =>
    rw [List.mapM_cons]
    refine bind (hf a List.mem_cons_self) fun b _ => ?_
    exact bind (ih fun c hc => hf c (List.mem_cons_of_mem a hc)) fun bs _ => trivial

end Yields

/-! ### Reading -/

theorem yields_cut {start stop : Nat} (hstart : Text.isBoundary d.text start = true)
    (hstop : Text.isBoundary d.text stop = true) (hle : start ≤ stop) :
    d.Yields (d.cut start stop) fun t =>
      t.toByteArray = d.text.toByteArray.extract start stop := by
  obtain ⟨t, ht, hbytes⟩ := Text.exists_slice? hstart hstop hle
  rw [cut, ht]
  exact hbytes

theorem Measured.yields_cut_node (h : d.Measured) {n : Node} (hn : n ∈ d.root.preorder) :
    d.Yields (d.cut n.start n.stop) fun t =>
      t.toByteArray = d.text.toByteArray.extract n.start n.stop :=
  yields_cut (h.isBoundary n hn).1 (h.isBoundary n hn).2 (h.nested n hn).start_le_stop

theorem Measured.start_le (h : d.Measured) {n : Node} (hn : n ∈ d.root.preorder) :
    n.start ≤ d.text.utf8ByteSize :=
  Text.le_utf8ByteSize_of_isBoundary (h.isBoundary n hn).1

namespace Spans

variable {n : Node} {s : Span} {stop : Nat}

theorem resolveEnd_eq (h : d.Spans n s stop) : d.resolveEnd s.last = .ok stop := by
  have hlen := Text.le_utf8ByteSize_of_isBoundary h.stop_isBoundary
  have hlast := h.last_lt_stop
  rw [resolveEnd, if_neg (by omega), h.tokenEnd_eq]

theorem first_le_stop (h : d.Spans n s stop) : s.first ≤ stop :=
  h.first_le_last.trans h.last_lt_stop.le

/-- A span is read as it stands, from its start through the end of its last token. -/
theorem read_eq (h : d.Spans n s stop) : d.read s = d.cut s.first stop := by
  have hfirst := h.first_le_last
  rw [read, if_neg (by omega), h.resolveEnd_eq]
  rfl

theorem yields_read (h : d.Spans n s stop) :
    d.Yields (d.read s) fun t => t.toByteArray = d.text.toByteArray.extract s.first stop := by
  rw [h.read_eq]
  exact yields_cut h.first_isBoundary h.stop_isBoundary h.first_le_stop

theorem first_le (h : d.Spans n s stop) : s.first ≤ d.text.utf8ByteSize :=
  Text.le_utf8ByteSize_of_isBoundary h.first_isBoundary

theorem mono {m : Node} (h : d.Spans n s stop) (hstart : m.start ≤ n.start)
    (hstop : n.stop ≤ m.stop) : d.Spans m s stop :=
  { h with
    start_le_first := hstart.trans h.start_le_first
    stop_le_stop := h.stop_le_stop.trans hstop }

end Spans

/-! ### Spans of well-formed documents -/

theorem Measured.tokenEnd?_eq_some (h : d.Measured) {t : Node}
    (ht : t ∈ preorders d.root.children) (htoken : t.isToken = true) (hwide : t.isWide = true) :
    d.root.tokenEnd? t.start = some t.stop := by
  rw [Node.tokenEnd?_of_inner (Node.isToken_eq_false_of_below ht)]
  exact (Node.LaidOut.of_nested h.nested).tokenEndOf?_eq_some ht htoken hwide

theorem Measured.spans_to_token (h : d.Measured) {n first t : Node}
    (hfirst : first ∈ d.root.preorder) (ht : t ∈ preorders d.root.children)
    (htoken : t.isToken = true) (hwide : t.isWide = true) (hstart : n.start ≤ first.start)
    (hle : first.start ≤ t.start) (hstop : t.stop ≤ n.stop) :
    d.Spans n ⟨first.start, t.start⟩ t.stop where
  start_le_first := hstart
  first_le_last := hle
  last_lt_stop := by simpa [Node.isWide] using hwide
  stop_le_stop := hstop
  first_isBoundary := (h.isBoundary first hfirst).1
  stop_isBoundary := (h.isBoundary t (Node.mem_preorder_of_below ht)).2
  tokenEnd_eq := h.tokenEnd?_eq_some ht htoken hwide

theorem Measured.nested_below (h : d.Measured) {n : Node} (hn : n ∈ preorders d.root.children) :
    ∀ m ∈ n.preorder, m.Nested := fun m hm =>
  h.nested m (Node.mem_preorder_of_below (Node.mem_preorders_of_mem_preorder hn hm))

theorem Measured.laidOut_singleton (h : d.Measured) {n : Node}
    (hn : n ∈ preorders d.root.children) : Node.LaidOut [n] :=
  .singleton (h.nested_below hn)

/-- A solid node ends in a token, trailing comments aside, and that is the one that the search
for the last token finds. -/
theorem Tokenized.exists_lastToken (h : d.Tokenized) {n : Node}
    (hn : n ∈ preorders d.root.children) (hsolid : n.isSolid = true) :
    ∃ t, n.lastToken? = some t ∧ n.lastTokenStart = t.start := by
  have hin : ∀ m ∈ preorders [n], m ∈ preorders d.root.children := fun m hm => by
    rw [Node.preorders_singleton] at hm
    exact Node.mem_preorders_of_mem_preorder hn hm
  obtain ⟨t, ht, hlast⟩ := (h.laidOut_singleton hn).exists_lastToken
    (fun m hm => h.comment_isToken m (Node.mem_preorder_of_below (hin m hm)))
    (fun m hm => h.solid_child m (hin m hm)) ⟨n, List.mem_cons_self, hsolid⟩
  refine ⟨t, ?_, ?_⟩
  · rw [Node.solidTokens_cons] at ht
    rw [Node.lastToken?, ← ht]
    exact congrArg List.getLast? (List.append_nil _).symm
  · rw [Node.lastTokenStartOf?, Node.lastTokenStartOf?] at hlast
    exact Option.some.inj ((if_pos hsolid).symm.trans hlast)

theorem Tokenized.exists_spans_node (h : d.Tokenized) {n : Node}
    (hn : n ∈ preorders d.root.children) (hsolid : n.isSolid = true) :
    ∃ t, n.lastToken? = some t ∧ d.Spans n n.span t.stop := by
  obtain ⟨t, hlast, hstart⟩ := h.exists_lastToken hn hsolid
  have hmem : t ∈ n.tokens := (List.mem_filter.1 (List.mem_of_getLast? hlast)).1
  obtain ⟨ht, htoken, hwide⟩ := Node.mem_tokens_iff.1 hmem
  obtain ⟨hfirst, hstop⟩ := (h.laidOut_singleton hn).covers_head ht
  refine ⟨t, hlast, ?_⟩
  rw [Node.span, hstart]
  exact h.spans_to_token (Node.mem_preorder_of_below hn)
    (Node.mem_preorders_of_mem_preorder hn ht) htoken hwide (Nat.le_refl _) hfirst hstop

structure IsPart (d : Document) (n c : Node) : Prop where
  mem : c ∈ preorders d.root.children
  isSolid : c.isSolid = true
  start_le_start : n.start ≤ c.start
  stop_le_stop : c.stop ≤ n.stop

section Parts

variable {n : Node} (h : d.WellFormedAt n.kind) (hn : n ∈ preorders d.root.children)

include h hn

theorem WellFormedAt.isPart {c : Node} (hc : c ∈ n.parts) : d.IsPart n c := by
  obtain ⟨hchild, hpart⟩ := List.mem_filter.1 hc
  have hn' : n ∈ d.root.preorder := Node.mem_preorder_of_below hn
  have hwide := h.part_isWide n hn' rfl c hc
  obtain ⟨hstart, hstop⟩ := (h.nested n hn').covers c hchild
  rw [Bool.and_eq_true] at hpart
  exact ⟨Node.mem_preorders_of_child hn hchild, by rw [Node.isSolid, hpart.1, hwide]; rfl,
    hstart, hstop⟩

theorem WellFormedAt.exists_spans_part {c : Node} (hc : c ∈ n.parts) :
    ∃ t, c.lastToken? = some t ∧ d.Spans n c.span t.stop := by
  have hpart := h.isPart hn hc
  obtain ⟨t, hlast, hspans⟩ := h.exists_spans_node hpart.mem hpart.isSolid
  exact ⟨t, hlast, hspans.mono hpart.start_le_start hpart.stop_le_stop⟩

theorem WellFormedAt.start_le_of_head? {first c : Node} (hfirst : n.parts.head? = some first)
    (hc : c ∈ n.parts) : first.start ≤ c.start := by
  have hlaid := (Node.LaidOut.of_nested h.nested).children hn
  have hapart : n.parts.Pairwise fun a b => a.stop ≤ b.start := hlaid.apart.filter _
  obtain ⟨rest, hparts⟩ := List.head?_eq_some_iff.1 hfirst
  rw [hparts] at hapart hc
  rcases List.mem_cons.1 hc with rfl | hc
  · exact Nat.le_refl _
  · have hbefore := (List.pairwise_cons.1 hapart).1 c hc
    have hmem : first ∈ n.parts := by simp [hparts]
    have hle := (h.nested first
      (Node.mem_preorder_of_below (h.isPart hn hmem).mem)).start_le_stop
    omega

theorem WellFormedAt.spans_parts {first last : Node} (hfirst : n.parts.head? = some first)
    (hlast : last ∈ n.parts) (hclose : last.kind = .closeParen) :
    d.Spans n ⟨first.start, last.start⟩ last.stop := by
  have hmem : first ∈ n.parts := List.mem_of_mem_head? hfirst
  have hfirstPart := h.isPart hn hmem
  have hlastPart := h.isPart hn hlast
  have hsolid := hlastPart.isSolid
  rw [Node.isSolid, Bool.and_eq_true] at hsolid
  exact h.spans_to_token (Node.mem_preorder_of_below hfirstPart.mem) hlastPart.mem
    (h.closeParen_isToken last (Node.mem_preorder_of_below hlastPart.mem) hclose) hsolid.2
    hfirstPart.start_le_start (h.start_le_of_head? hn hfirst hlast) hlastPart.stop_le_stop

end Parts

/-! ### Constructs -/

def CanRead (d : Document) (n : Node) (s : Span) : Prop := ∃ stop, d.Spans n s stop

/-- All that lowering asks of a construct that was read off `n` can be read. -/
def Legible (d : Document) (n : Node) : Construct → Prop
  | .fold f => d.CanRead n f.span ∧ d.CanRead n f.pattern ∧ ∀ i ∈ f.init, d.CanRead n i
  | .assertion a => d.CanRead n a.span ∧ d.CanRead n a.condition
  | .other => True

theorem Measured.refuses_malformed (h : d.Measured) {n : Node} (hn : n ∈ d.root.preorder) :
    d.Refuses n.malformed :=
  ⟨rfl, n.start, rfl, h.start_le hn⟩

theorem Measured.yields_operatorAt (h : d.Measured) {token : Node}
    (ht : token ∈ d.root.preorder) : d.Yields (d.operatorAt token) fun _ => True := by
  refine (h.yields_cut_node ht).bind fun spelled _ => ?_
  cases Operator.ofToken? spelled with
  | some op => trivial
  | none => exact ⟨rfl, token.start, rfl, h.start_le ht⟩

theorem Measured.yields_holdsPack (h : d.Measured) (packs : List String) {n : Node}
    (hn : n ∈ d.root.preorder)
    (hchildren : d.Yields (d.anyHoldsPack packs n.children) fun _ => True) :
    d.Yields (d.holdsPack packs n) fun _ => True := by
  have hcut := h.yields_cut_node hn
  cases n with
  | mk kind start stop named missing children =>
    cases children with
    | nil =>
      rw [holdsPack]
      split
      · exact hcut.bind fun name _ => trivial
      · trivial
    | cons c cs =>
      rw [holdsPack]
      split
      · trivial
      · exact hchildren

theorem Measured.yields_anyHoldsPack (h : d.Measured) (packs : List String) {ns : List Node}
    (hns : ∀ n ∈ preorders ns, n ∈ d.root.preorder) :
    d.Yields (d.anyHoldsPack packs ns) fun _ => True := by
  induction ns using Node.forest_induction with
  | nil => trivial
  | cons n ns below behind =>
    have hn : n ∈ d.root.preorder := hns n (Node.mem_preorders_head n ns)
    have hhead := h.yields_holdsPack packs hn
      (below fun m hm => hns m (Node.mem_preorders_cons_of_below hm))
    have htail := behind fun m hm => hns m (Node.mem_preorders_cons_of_behind hm)
    rw [anyHoldsPack]
    cases hholds : d.holdsPack packs n with
    | error f =>
      rw [hholds] at hhead
      exact hhead
    | ok b =>
      cases b with
      | true => trivial
      | false => exact htail

theorem Measured.yields_holdsPack_of_mem (h : d.Measured) (packs : List String) {n : Node}
    (hn : n ∈ preorders d.root.children) : d.Yields (d.holdsPack packs n) fun _ => True :=
  h.yields_holdsPack packs (Node.mem_preorder_of_below hn) <|
    h.yields_anyHoldsPack packs fun _ hm =>
      Node.mem_preorder_of_below (Node.mem_preorders_of_below hn hm)

theorem Measured.yields_direction (h : d.Measured) (packs : List String) {n left right : Node}
    (hn : n ∈ d.root.preorder) (hleft : left ∈ preorders d.root.children)
    (hright : right ∈ preorders d.root.children) :
    d.Yields (d.direction packs n left right) fun _ => True := by
  refine (h.yields_holdsPack_of_mem packs hleft).bind fun inLeft _ => ?_
  refine (h.yields_holdsPack_of_mem packs hright).bind fun inRight _ => ?_
  split
  · trivial
  · trivial
  · trivial
  · trivial
  · exact (h.yields_cut_node hn).bind fun whole _ => ⟨rfl, n.start, rfl, h.start_le hn⟩

theorem arguments?_eq_some {parts arguments : List Node} {closing : Node}
    (h : arguments? parts = some (arguments, closing)) :
    closing ∈ parts ∧ closing.kind = .closeParen ∧ ∀ c ∈ arguments, c ∈ parts := by
  simp only [arguments?] at h
  have hinside : (parts.dropWhile (·.kind != .openParen)).tail ⊆ parts := fun c hc =>
    List.dropWhile_subset _ (List.mem_of_mem_tail hc)
  generalize (parts.dropWhile (·.kind != .openParen)).tail = inside at h hinside
  cases hend : inside.reverse.dropWhile (·.kind != .closeParen) with
  | nil =>
    rw [hend] at h
    cases h
  | cons c before =>
    rw [hend] at h
    cases h
    have hsub : closing :: before ⊆ inside.reverse := by
      rw [← hend]
      exact List.dropWhile_subset _
    have hsub' : ∀ c ∈ closing :: before, c ∈ parts := fun c hc =>
      hinside (List.mem_reverse.1 (hsub hc))
    have hclose := List.head?_dropWhile_not (fun c : Node => c.kind != .closeParen) inside.reverse
    rw [hend] at hclose
    refine ⟨hsub' closing List.mem_cons_self, by simpa using hclose, fun c hc => ?_⟩
    exact hsub' c (List.mem_cons_of_mem closing (List.mem_reverse.1 hc))

section Read

variable {n : Node} (h : d.WellFormed) (hn : n ∈ preorders d.root.children)

include h hn

theorem WellFormed.yields_foldOf (packs : List String) (hkind : n.kind = .foldExpression)
    {span : Span} (hspan : d.CanRead n span) {inner : List Node}
    (hinner : ∀ c ∈ inner, c ∈ n.parts) :
    d.Yields (d.foldOf packs n span inner) fun f => d.Legible n (.fold f) := by
  have hn' : n ∈ d.root.preorder := Node.mem_preorder_of_below hn
  have hat : d.WellFormedAt n.kind := h.at_kind (Or.inl hkind)
  have hmem : ∀ c ∈ inner, c ∈ preorders d.root.children := fun c hc =>
    (hat.isPart hn (hinner c hc)).mem
  have hread : ∀ c ∈ inner, d.CanRead n c.span := fun c hc => by
    obtain ⟨t, _, hspans⟩ := hat.exists_spans_part hn (hinner c hc)
    exact ⟨t.stop, hspans⟩
  have hop : ∀ c ∈ inner, d.Yields (d.operatorAt c) fun _ => True := fun c hc =>
    h.yields_operatorAt (Node.mem_preorder_of_below (hmem c hc))
  rw [foldOf.eq_def]
  split
  · rename_i a op b
    split
    · refine (hop op (by simp)).bind fun operator _ => ?_
      exact ⟨hspan, hread b (by simp), by simp⟩
    · split
      · refine (hop op (by simp)).bind fun operator _ => ?_
        exact ⟨hspan, hread a (by simp), by simp⟩
      · exact h.refuses_malformed hn'
  · rename_i left op dots op' right
    split
    · refine (hop op (by simp)).bind fun operator _ => ?_
      refine (hop op' (by simp)).bind fun operator' _ => ?_
      split
      · exact h.refuses_malformed hn'
      · refine (h.yields_direction packs hn' (hmem left (by simp))
          (hmem right (by simp))).bind fun direction _ => ?_
        cases direction with
        | left => exact ⟨hspan, hread right (by simp), by simpa using hread left (by simp)⟩
        | right => exact ⟨hspan, hread left (by simp), by simpa using hread right (by simp)⟩
    · exact h.refuses_malformed hn'
  · exact h.refuses_malformed hn'

theorem WellFormed.yields_fold (packs : List String) (hkind : n.kind = .foldExpression) :
    d.Yields (d.fold packs n) fun f => d.Legible n (.fold f) := by
  have hn' : n ∈ d.root.preorder := Node.mem_preorder_of_below hn
  rw [fold]
  split
  · rename_i opening closing hopening hclosing
    split
    · exact h.refuses_malformed hn'
    · rename_i hshape
      have hclose : closing.kind = .closeParen := by
        by_contra hne
        exact hshape (Or.inr (Or.inr hne))
      have hlast : closing ∈ n.parts := List.mem_of_getLast? hclosing
      apply h.yields_foldOf hn packs hkind
        ⟨closing.stop, (h.at_kind (Or.inl hkind)).spans_parts hn hopening hlast hclose⟩
      intro c hc
      exact List.mem_of_mem_tail ((List.dropLast_sublist _).subset hc)
  · exact h.refuses_malformed hn'

theorem WellFormed.yields_assertion (hkind : n.kind = .staticAssertion) :
    d.Yields n.assertion fun a => d.Legible n (.assertion a) := by
  have hn' : n ∈ d.root.preorder := Node.mem_preorder_of_below hn
  rw [Node.assertion]
  split
  · rename_i keyword arguments closing hkeyword harguments
    obtain ⟨hlast, hclose, hparts⟩ := arguments?_eq_some harguments
    split
    · rename_i condition hcondition
      have hat : d.WellFormedAt n.kind := h.at_kind (Or.inr hkind)
      have hpart : condition ∈ n.parts := hparts condition (List.mem_of_find?_eq_some hcondition)
      obtain ⟨t, _, hspans⟩ := hat.exists_spans_part hn hpart
      exact ⟨⟨closing.stop, hat.spans_parts hn hkeyword hlast hclose⟩, t.stop, hspans⟩
    · exact h.refuses_malformed hn'
  · exact h.refuses_malformed hn'

/-- Every node of a well-formed document is read, or refused for what it is. -/
theorem WellFormed.yields_construct (packs : List String) :
    d.Yields (d.construct packs n) (d.Legible n) := by
  rw [construct]
  split
  · exact (h.yields_fold hn packs ‹_›).map
  · exact (h.yields_assertion hn ‹_›).map
  · trivial

end Read

/-! ### Lowering -/

/-- The edit replaces at least one byte, all inside `n`, and can be made in the text. -/
structure EditsInside (d : Document) (n : Node) (e : Edit) : Prop where
  start_le_start : n.start ≤ e.start
  start_lt_stop : e.start < e.stop
  stop_le_stop : e.stop ≤ n.stop
  fits : e.Fits d.text

theorem Spans.editsInside {n : Node} {s : Span} {stop : Nat} (h : d.Spans n s stop)
    (text : String) (note : Option String) : d.EditsInside n ⟨s.first, stop, text, note⟩ := by
  have hfirst := h.first_le_last
  have hlast := h.last_lt_stop
  refine ⟨h.start_le_first, ?_, h.stop_le_stop, ?_, h.first_isBoundary, h.stop_isBoundary⟩
  · show s.first < stop
    omega
  · show s.first ≤ stop
    omega

def Lowered (d : Document) (n : Node) : Outcome → Prop
  | .edited e => d.EditsInside n e
  | .kept => True
  | .rejected _ span => d.CanRead n span

theorem yields_lowerFold {n : Node} {f : Fold} (h : d.Legible n (.fold f)) :
    d.Yields (d.lowerFold f) (d.Lowered n) := by
  obtain ⟨⟨stop, hspan⟩, ⟨_, hpattern⟩, hinit⟩ := h
  refine hpattern.yields_read.bind fun pattern _ => ?_
  split
  · exact ⟨stop, hspan⟩
  · split
    · exact ⟨rfl, f.span.first, rfl, hspan.first_le⟩
    · rename_i name _
      have hread : d.Yields (f.init.mapM d.read) fun _ => True := by
        cases hi : f.init with
        | none => trivial
        | some i =>
          obtain ⟨_, hi'⟩ := hinit i hi
          exact hi'.yields_read.bind fun _ _ => trivial
      refine hread.bind fun init _ => ?_
      rw [hspan.resolveEnd_eq]
      exact hspan.editsInside _ _

theorem yields_lowerAssertion {n : Node} {a : Assertion} (h : d.Legible n (.assertion a)) :
    d.Yields (d.lowerAssertion a) (d.Lowered n) := by
  obtain ⟨⟨stop, hspan⟩, ⟨_, hcondition⟩⟩ := h
  rw [lowerAssertion]
  split
  · trivial
  · refine hcondition.yields_read.bind fun condition _ => ?_
    rw [hspan.resolveEnd_eq]
    exact hspan.editsInside _ _

/-- A legible construct is lowered to an edit inside its node, kept or rejected. -/
theorem yields_lower {n : Node} {c : Construct} (h : d.Legible n c) :
    d.Yields (d.lower c) (d.Lowered n) := by
  cases c with
  | fold f => exact yields_lowerFold h
  | assertion a => exact yields_lowerAssertion h
  | other => trivial

end Document

end Downlevel
