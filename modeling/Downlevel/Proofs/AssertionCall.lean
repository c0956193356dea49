import Downlevel.Proofs.FoldCall
import Mathlib.Data.List.TakeWhile

/-!
# The messages that assertions gain

The arguments of a static assertion stand between its first opening parenthesis
and its last closing one, comments and nodes that the parser made up aside. An
assertion in which something named follows the first comma has a message: it is
left alone, and a pass goes on to the nodes below it. Any other one is replaced as
a whole, with its condition as it was written and an empty message, and the nodes
below it are left to the next pass.
-/

namespace Downlevel

/-- How the parts of `n` read as an assertion: `arguments` is all that stands between the first
opening parenthesis and the last closing one, and `condition` is the first named argument. -/
structure Node.Asserts (n first closing condition : Node) (arguments : List Node) : Prop where
  head : n.parts.head? = some first
  enclosed : ∃ before opening after,
    n.parts = before ++ opening :: (arguments ++ closing :: after) ∧
      opening.kind = .openParen ∧ closing.kind = .closeParen ∧
      (∀ c ∈ before, c.kind ≠ .openParen) ∧ ∀ c ∈ after, c.kind ≠ .closeParen
  leads : ∃ before after, arguments = before ++ condition :: after ∧ condition.named = true ∧
    ∀ c ∈ before, c.named = false

def HasMessage (arguments : List Node) : Prop :=
  ∃ before comma after, arguments = before ++ comma :: after ∧ comma.kind = .comma ∧
    (∀ c ∈ before, c.kind ≠ .comma) ∧ ∃ m ∈ after, m.named = true

theorem dropWhile_kind_append {kind : Kind} {before : List Node} {n : Node}
    (hbefore : ∀ c ∈ before, c.kind ≠ kind) (hn : n.kind = kind) (after : List Node) :
    (before ++ n :: after).dropWhile (·.kind != kind) = n :: after := by
  rw [List.dropWhile_append_of_pos fun c hc => by simpa using hbefore c hc,
    List.dropWhile_cons_of_neg (by simp [hn])]

theorem hasMessage_iff {arguments : List Node} :
    HasMessage arguments ↔
      ∃ m, (arguments.dropWhile (·.kind != .comma)).tail.find? (·.named) = some m := by
  constructor
  · rintro ⟨before, comma, after, rfl, hcomma, hbefore, hnamed⟩
    rw [dropWhile_kind_append hbefore hcomma, List.tail_cons, ← Option.isSome_iff_exists,
      List.find?_isSome]
    exact hnamed
  · rintro ⟨m, hm⟩
    -- What is dropped ends in front of the first comma, unless there is none.
    have hsplit := List.takeWhile_append_dropWhile (p := fun c : Node => c.kind != .comma)
      (l := arguments)
    have hhead := List.head?_dropWhile_not (fun c : Node => c.kind != .comma) arguments
    cases hdrop : arguments.dropWhile (·.kind != .comma) with
    | nil =>
      rw [hdrop] at hm
      cases hm
    | cons comma after =>
      rw [hdrop] at hm hsplit hhead
      refine ⟨_, comma, after, hsplit.symm, by simpa using hhead, fun c hc => ?_, m,
        List.mem_of_find?_eq_some hm, by simpa using List.find?_some hm⟩
      simpa using List.mem_takeWhile_imp hc

namespace Node.Asserts

variable {n first closing condition : Node} {arguments : List Node}

theorem arguments?_eq (h : n.Asserts first closing condition arguments) :
    arguments? n.parts = some (arguments, closing) := by
  obtain ⟨before, opening, after, hparts, hopening, hclosing, hbefore, hafter⟩ := h.enclosed
  have hinside : (n.parts.dropWhile (·.kind != .openParen)).tail =
      arguments ++ closing :: after := by
    rw [hparts, dropWhile_kind_append hbefore hopening, List.tail_cons]
  -- The last parenthesis is the first one from behind.
  have hreverse : (arguments ++ closing :: after).reverse =
      after.reverse ++ closing :: arguments.reverse := by simp
  have hlast : (after.reverse ++ closing :: arguments.reverse).dropWhile
      (·.kind != .closeParen) = closing :: arguments.reverse :=
    dropWhile_kind_append (fun c hc => hafter c (List.mem_reverse.1 hc)) hclosing _
  simp only [arguments?, hinside, hreverse, hlast, List.reverse_reverse]

theorem find?_eq (h : n.Asserts first closing condition arguments) :
    arguments.find? (·.named) = some condition := by
  obtain ⟨before, after, rfl, hnamed, hbefore⟩ := h.leads
  refine List.find?_eq_some_iff_append.2 ⟨hnamed, before, after, rfl, fun c hc => ?_⟩
  simp [hbefore c hc]

theorem assertion_eq (h : n.Asserts first closing condition arguments) :
    n.assertion = .ok ⟨⟨first.start, closing.start⟩, condition.span,
      ((arguments.dropWhile (·.kind != .comma)).tail.find? (·.named)).map (·.span)⟩ := by
  simp only [assertion, h.head, h.arguments?_eq, h.find?_eq]

theorem closing_kind (h : n.Asserts first closing condition arguments) :
    closing.kind = .closeParen := by
  obtain ⟨_, _, _, _, _, hclosing, _⟩ := h.enclosed
  exact hclosing

theorem closing_mem (h : n.Asserts first closing condition arguments) : closing ∈ n.parts := by
  obtain ⟨before, opening, after, hparts, _⟩ := h.enclosed
  simp [hparts]

theorem condition_mem (h : n.Asserts first closing condition arguments) :
    condition ∈ n.parts := by
  obtain ⟨before, opening, after, hparts, _⟩ := h.enclosed
  have hmem : condition ∈ arguments := List.mem_of_find?_eq_some h.find?_eq
  simp [hparts, hmem]

end Node.Asserts

namespace Document

open Node (preorders)

variable {d : Document} {packs : List String} {n first closing condition : Node}
  {arguments : List Node}

theorem lower_assertion_eq {span condition : Span} {text : String} {stop : Nat}
    (hcondition : d.read condition = .ok text) (hstop : d.resolveEnd span.last = .ok stop) :
    d.lower (.assertion ⟨span, condition, none⟩) = .ok (.edited ⟨span.first, stop,
      "static_assert(" ++ text ++ ", \"\")", some "static_assert message"⟩) := by
  simp only [lower, lowerAssertion, hcondition, hstop, bind, Except.bind]
  rfl

/-- Whatever the parts of an assertion look like: with a message it stays, and the nodes below it
are visited; without one it is replaced from its first part through its last parenthesis, and the
nodes below it are passed over. -/
theorem construct_lower_assertion (h : d.WellFormedAt .staticAssertion)
    (hn : n ∈ preorders d.root.children) (hkind : n.kind = .staticAssertion)
    (hreads : n.Asserts first closing condition arguments) (packs : List String) :
    (HasMessage arguments →
        (d.construct packs n >>= d.lower) = .ok .kept ∧
          ∀ p rest, d.walk packs (n :: rest) p =
            d.walk packs (n.children ++ rest) { p with visited := p.visited + 1 }) ∧
      (¬ HasMessage arguments →
        ∃ text e, d.verbatim? condition = some text ∧
          e = ⟨first.start, closing.stop, "static_assert(" ++ text ++ ", \"\")",
            some "static_assert message"⟩ ∧
          (d.construct packs n >>= d.lower) = .ok (.edited e) ∧
          (∀ b : Buffer, b.source = d.text → (∀ f ∈ b.edits, f.stop ≤ n.start) →
            b.record e = .ok { b with edits := b.edits ++ [e] }) ∧
          ∀ p rest b, p.buffer.record e = .ok b →
            d.walk packs (n :: rest) p = d.walk packs rest ⟨b, p.visited + 1⟩) := by
  have hat : d.WellFormedAt n.kind := hkind ▸ h
  have hconstruct : d.construct packs n = .ok (.assertion ⟨⟨first.start, closing.start⟩,
      condition.span, ((arguments.dropWhile (·.kind != .comma)).tail.find? (·.named)).map
        (·.span)⟩) := by
    rw [construct, hkind, hreads.assertion_eq]
    rfl
  constructor
  · intro hmessage
    obtain ⟨m, hm⟩ := hasMessage_iff.1 hmessage
    rw [hm] at hconstruct
    have hlower : (d.construct packs n >>= d.lower) = .ok .kept := by
      rw [hconstruct]
      rfl
    refine ⟨hlower, fun p rest => ?_⟩
    exact walk_cons_of_enter (visit_of_kept hconstruct rfl p) rest
  · intro hmessage
    have hnone : (arguments.dropWhile (·.kind != .comma)).tail.find? (·.named) = none := by
      by_contra hne
      exact hmessage (hasMessage_iff.2 (Option.ne_none_iff_exists'.1 hne))
    rw [hnone] at hconstruct
    obtain ⟨text, hverbatim, hread⟩ := hat.exists_verbatim hn hreads.condition_mem
    have hspans := hat.spans_parts hn hreads.head hreads.closing_mem hreads.closing_kind
    have hlower := lower_assertion_eq hread hspans.resolveEnd_eq
    refine ⟨text, _, hverbatim, rfl, ?_, fun b hsource hfront => ?_, fun p rest b hrecord => ?_⟩
    · rw [hconstruct]
      exact hlower
    · have hinside := hspans.editsInside ("static_assert(" ++ text ++ ", \"\")")
        (some "static_assert message")
      refine Buffer.record_eq_of_behind (hsource ▸ hinside.fits) fun f hf => ?_
      exact (hfront f hf).trans hinside.start_le_start
    · exact walk_cons_of_skip (visit_of_edited hconstruct hlower hrecord) rest

/-- An assertion without a message, whose condition ends in a comment. -/
def bareCondition : Node :=
  ⟨.other "call_expression", 14, 20, true, false,
    [.token .identifier 14 16, .token .comment 16 20]⟩

def bareAssertion : Node :=
  ⟨.staticAssertion, 0, 22, true, false,
    [.token (.other "static_assert") 0 13, .token .openParen 13 14, bareCondition,
      .token .closeParen 20 21, .token (.other ";") 21 22]⟩

def toldAssertion : Node :=
  ⟨.staticAssertion, 22, 45, true, false,
    [.token (.other "static_assert") 22 35, .token .openParen 35 36, .token .identifier 36 37,
      .token .comma 37 38, .token .comment 38 42, .token .identifier 42 43,
      .token .closeParen 43 44, .token (.other ";") 44 45]⟩

def assertions : Document where
  text := "static_assert(é/**/);static_assert(a,/**/b);"
  root := ⟨.other "translation_unit", 0, 45, true, false, [bareAssertion, toldAssertion]⟩

theorem construct_lower_assertion_assertions :
    assertions.WellFormedAt .staticAssertion ∧
      (assertions.construct [] bareAssertion >>= assertions.lower) = .ok (.edited
        ⟨0, 21, "static_assert(é, \"\")", some "static_assert message"⟩) ∧
      (assertions.construct [] toldAssertion >>= assertions.lower) = .ok .kept := by
  have hwell : assertions.WellFormedAt .staticAssertion := by decide
  have hbare : bareAssertion.Asserts (.token (.other "static_assert") 0 13)
      (.token .closeParen 20 21) bareCondition [bareCondition] :=
    ⟨rfl, ⟨[_], _, [_], rfl, rfl, rfl, by decide, by decide⟩, [], [], rfl, rfl, by decide⟩
  have htold : toldAssertion.Asserts (.token (.other "static_assert") 22 35)
      (.token .closeParen 43 44) (.token .identifier 36 37)
      [.token .identifier 36 37, .token .comma 37 38, .token .identifier 42 43] :=
    ⟨rfl, ⟨[_], _, [_], rfl, rfl, rfl, by decide, by decide⟩, [], [_, _], rfl, rfl, by decide⟩
  refine ⟨hwell, ?_, ?_⟩
  · have hnone : ¬ HasMessage [bareCondition] := by
      rw [hasMessage_iff]
      rintro ⟨m, hm⟩
      cases hm
    obtain ⟨text, e, htext, rfl, hlower, _⟩ := (construct_lower_assertion hwell
      (Node.mem_preorders_head _ _) rfl hbare []).2 hnone
    have htext' : some text = some "é" := htext.symm.trans (by rfl)
    rw [hlower, Option.some.inj htext']
    rfl
  · have hsome : HasMessage [.token .identifier 36 37, .token .comma 37 38,
        .token .identifier 42 43] :=
      ⟨[_], _, [_], rfl, rfl, by decide, _, List.mem_cons_self, rfl⟩
    exact ((construct_lower_assertion hwell (Node.mem_preorders_cons_of_behind
      (Node.mem_preorders_head _ _)) rfl htold []).1 hsome).1

end Document

end Downlevel
