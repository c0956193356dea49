import Downlevel.Proofs.Decided
import Downlevel.Proofs.Pass

/-!
# Syntax errors

Whether a tree holds a syntax error and which one is the first are two searches
of their own. Both go by the listing of all nodes in document order. In a tree
that is laid out the starts do not decrease along this listing, so the first
error is a leftmost one, and a checked pass points at it.
-/

namespace Downlevel

namespace Node

theorem hasErrors_eq (n : Node) : n.hasErrors = (n.isError || anyHasErrors n.children) := by
  cases n
  rw [hasErrors, isError]

theorem anyHasErrors_eq_any (ns : List Node) : anyHasErrors ns = (preorders ns).any isError := by
  induction ns using forest_induction with
  | nil => rfl
  | cons n ns below behind =>
    rw [anyHasErrors, hasErrors_eq, preorders, preorder_eq, List.any_append, List.any_cons, below,
      behind]

theorem hasErrors_eq_any (n : Node) : n.hasErrors = n.preorder.any isError := by
  rw [hasErrors_eq, preorder_eq, List.any_cons, anyHasErrors_eq_any]

theorem hasErrors_iff {n : Node} : n.hasErrors = true ↔ ∃ m ∈ n.preorder, m.isError = true := by
  rw [hasErrors_eq_any, List.any_eq_true]

theorem exists_firstError?_iff {n : Node} :
    (∃ e, n.firstError? = some e) ↔ ∃ m ∈ n.preorder, m.isError = true := by
  rw [firstError?_eq_find?, ← Option.isSome_iff_exists, List.find?_isSome]

theorem firstError?_eq_some_iff {n e : Node} :
    n.firstError? = some e ↔ e.isError = true ∧ ∃ before after,
      n.preorder = before ++ e :: after ∧ ∀ m ∈ before, m.isError = false := by
  rw [firstError?_eq_find?, List.find?_eq_some_iff_append]
  simp only [Bool.not_eq_true']

theorem mem_of_firstError? {n e : Node} (h : n.firstError? = some e) :
    e ∈ n.preorder ∧ e.isError = true := by
  rw [firstError?_eq_find?] at h
  exact ⟨List.mem_of_find?_eq_some h, List.find?_some h⟩

/-- In a forest that is laid out no node starts before one that precedes it in document
order. -/
theorem LaidOut.pairwise_start {ns : List Node} (h : LaidOut ns) :
    (preorders ns).Pairwise fun a b => a.start ≤ b.start := by
  induction ns using forest_induction with
  | nil => exact List.Pairwise.nil
  | cons n ns below behind =>
    rw [preorders, List.pairwise_append]
    refine ⟨?_, behind h.tail, fun a ha b hb => ?_⟩
    · rw [preorder_eq]
      refine List.Pairwise.cons (fun m hm => ?_) (below h.head_children)
      exact (h.covers_head (mem_preorder_of_below hm)).1
    · have hnested : a.Nested :=
        h.nested a (mem_preorders_of_mem_preorder (mem_preorders_head n ns) ha)
      exact hnested.start_le_stop.trans (h.stop_le_start ha hb)

/-- The first syntax error of a tree that is laid out starts where the leftmost ones do. -/
theorem start_le_of_firstError? {n e m : Node} (h : ∀ k ∈ n.preorder, k.Nested)
    (he : n.firstError? = some e) (hm : m ∈ n.preorder) (herror : m.isError = true) :
    e.start ≤ m.start := by
  obtain ⟨_, before, after, hlisting, hbefore⟩ := firstError?_eq_some_iff.1 he
  have hstarts := (LaidOut.singleton h).pairwise_start
  rw [preorders_singleton, hlisting, List.pairwise_append] at hstarts
  rw [hlisting, List.mem_append, List.mem_cons] at hm
  rcases hm with hm | rfl | hm
  · rw [hbefore m hm] at herror
    cases herror
  · exact Nat.le_refl _
  · exact (List.pairwise_cons.1 hstarts.2.1).1 m hm

/-- So the start of the first error is the smallest start of an error. -/
theorem exists_firstError?_start_iff {n : Node} {o : Nat} (h : ∀ k ∈ n.preorder, k.Nested) :
    (∃ e, n.firstError? = some e ∧ e.start = o) ↔
      (∃ m ∈ n.preorder, m.isError = true ∧ m.start = o) ∧
        ∀ m ∈ n.preorder, m.isError = true → o ≤ m.start := by
  constructor
  · rintro ⟨e, he, rfl⟩
    obtain ⟨hmem, herror⟩ := mem_of_firstError? he
    exact ⟨⟨e, hmem, herror, rfl⟩, fun m hm hm' => start_le_of_firstError? h he hm hm'⟩
  · rintro ⟨⟨m, hm, herror, rfl⟩, hleast⟩
    obtain ⟨e, he⟩ := exists_firstError?_iff.2 ⟨m, hm, herror⟩
    obtain ⟨hmem, herror'⟩ := mem_of_firstError? he
    have hle : e.start ≤ m.start := start_le_of_firstError? h he hm herror
    exact ⟨e, he, Nat.le_antisymm hle (hleast e hmem herror')⟩

end Node

/-- Only the search before a pass finds syntax errors. -/
theorem checkedPass_eq_syntaxErrors_iff {parse : String → Node} {text : String} {o : Nat} :
    checkedPass parse false text = .error (.syntaxErrors o) ↔
      ∃ e, (parse text).firstError? = some e ∧ e.start = o := by
  rw [checkedPass]
  simp only [Bool.false_eq_true, if_false]
  cases (parse text).firstError? with
  | some e => simp
  | none =>
    constructor
    · intro hpass
      cases Document.failsOnly_pass _ _ hpass
    · rintro ⟨e, he, _⟩
      cases he

/-- A tree holds syntax errors if and only if one is found as the first, and that is the first
one in document order. In a tree that is laid out none starts before it, so that a checked pass
fails with syntax errors if and only if there are any, and names the smallest start of them. -/
theorem firstError?_is_earliest (n : Node) :
    (n.hasErrors = true ↔ ∃ e, n.firstError? = some e) ∧
      (∀ e, n.firstError? = some e ↔ e.isError = true ∧ ∃ before after,
        n.preorder = before ++ e :: after ∧ ∀ m ∈ before, m.isError = false) ∧
      ((∀ m ∈ n.preorder, m.Nested) →
        (∀ e, n.firstError? = some e →
          ∀ m ∈ n.preorder, m.isError = true → e.start ≤ m.start) ∧
        ∀ (parse : String → Node) (text : String), parse text = n →
          ((∃ o, checkedPass parse false text = .error (.syntaxErrors o)) ↔
            ∃ m ∈ n.preorder, m.isError = true) ∧
          ∀ o, checkedPass parse false text = .error (.syntaxErrors o) ↔
            (∃ m ∈ n.preorder, m.isError = true ∧ m.start = o) ∧
              ∀ m ∈ n.preorder, m.isError = true → o ≤ m.start) := by
  refine ⟨Node.hasErrors_iff.trans Node.exists_firstError?_iff.symm,
    fun e => Node.firstError?_eq_some_iff, fun hnested => ⟨fun e he m hm herror =>
      Node.start_le_of_firstError? hnested he hm herror, ?_⟩⟩
  rintro parse text rfl
  refine ⟨?_, fun o => ?_⟩
  · rw [← Node.exists_firstError?_iff]
    constructor
    · rintro ⟨o, hpass⟩
      obtain ⟨e, he, _⟩ := checkedPass_eq_syntaxErrors_iff.1 hpass
      exact ⟨e, he⟩
    · rintro ⟨e, he⟩
      exact ⟨e.start, checkedPass_eq_syntaxErrors_iff.2 ⟨e, he, rfl⟩⟩
  · exact checkedPass_eq_syntaxErrors_iff.trans (Node.exists_firstError?_start_iff hnested)

/-- A tree for `f(a;*)`: a parenthesis is made up to close the call, and what follows the
semicolon is an error with another one inside. -/
def recovered : Node :=
  ⟨.other "translation_unit", 0, 6, true, false,
    [⟨.other "call_expression", 0, 3, true, false,
      [.token .identifier 0 1, .token .openParen 1 2, .token .identifier 2 3,
        ⟨.closeParen, 3, 3, false, true, []⟩]⟩,
      .token (.other ";") 3 4,
      ⟨.error, 4, 6, true, false, [.token .error 4 5, .token .closeParen 5 6]⟩]⟩

theorem firstError?_is_earliest_recovered :
    (∀ m ∈ recovered.preorder, m.Nested) ∧ recovered.hasErrors = true ∧
      checkedPass (fun _ => recovered) false "f(a;*)" = .error (.syntaxErrors 3) ∧
      ∀ m ∈ recovered.preorder, m.isError = true → 3 ≤ m.start := by
  obtain ⟨hsome, _, hlaid⟩ := firstError?_is_earliest recovered
  have hnested : ∀ m ∈ recovered.preorder, m.Nested := by decide
  obtain ⟨_, hchecked⟩ := hlaid hnested
  have hpass : checkedPass (fun _ => recovered) false "f(a;*)" = .error (.syntaxErrors 3) := by rfl
  obtain ⟨_, hleast⟩ := ((hchecked (fun _ => recovered) "f(a;*)" rfl).2 3).1 hpass
  exact ⟨hnested, hsome.2 ⟨_, rfl⟩, hpass, hleast⟩

end Downlevel
