import Downlevel.Proofs.Decided
import Downlevel.Proofs.Pass

/-!
# The walk as a recursion

The stack of a walk holds the trees that are still to be visited, siblings from
several levels. Taken from its top it is a forest, and walking over it comes to
the same as a recursion over the trees: visit a node, then its children from
the first to the last where the visit says so, and stop at the first fault.

The turns of the loops are written down apart from both, with every node named
by its number in document order. They come to an end, and no number is visited
twice.
-/

namespace Downlevel

open Node (preorders)

/-- A loop that stops at the first fault fails where an element does after all before it went
well. -/
theorem foldlM_eq_error_iff {σ α : Type} {f : σ → α → Except Fault σ} {xs : List α} {s : σ}
    {e : Fault} :
    xs.foldlM f s = .error e ↔ ∃ before x after t, xs = before ++ x :: after ∧
      before.foldlM f s = .ok t ∧ f t x = .error e := by
  constructor
  · intro h
    induction xs generalizing s with
    | nil => cases h
    | cons x xs ih =>
      rw [List.foldlM_cons] at h
      cases hx : f s x with
      | error e' =>
        rw [hx] at h
        cases h
        exact ⟨[], x, xs, s, rfl, rfl, hx⟩
      | ok s' =>
        rw [hx] at h
        obtain ⟨before, y, after, t, rfl, hbefore, hy⟩ := ih h
        refine ⟨x :: before, y, after, t, rfl, ?_, hy⟩
        rw [List.foldlM_cons, hx]
        exact hbefore
  · rintro ⟨before, x, after, t, rfl, hbefore, hx⟩
    rw [List.foldlM_append, hbefore]
    change List.foldlM f t (x :: after) = _
    rw [List.foldlM_cons, hx]
    rfl

namespace Node

/-- The trees of a forest, each with its number in document order if the first one has the
number `i`. -/
def numbered (i : Nat) : List Node → List (Node × Nat)
  | [] => []
  | n :: ns => (n, i) :: numbered (i + n.size) ns

def numberedBelow (vs : List (Node × Nat)) : List (Node × Nat) :=
  vs.flatMap fun v => v.1.preorder.zipIdx v.2

theorem size_eq (n : Node) : n.size = 1 + sizes n.children := by
  cases n
  rw [size]

theorem length_preorders (ns : List Node) : (preorders ns).length = sizes ns := by
  induction ns using forest_induction with
  | nil => rfl
  | cons n ns below behind =>
    rw [preorders, preorder_eq, List.length_append, List.length_cons, below, behind, sizes, size_eq]
    omega

theorem map_fst_numbered (i : Nat) (ns : List Node) : (numbered i ns).map Prod.fst = ns := by
  induction ns generalizing i with
  | nil => rfl
  | cons n ns ih => rw [numbered, List.map_cons, ih]

theorem numberedBelow_append (vs ws : List (Node × Nat)) :
    numberedBelow (vs ++ ws) = numberedBelow vs ++ numberedBelow ws :=
  List.flatMap_append

/-- The numbers are the places in the listing of all nodes. -/
theorem numberedBelow_numbered (i : Nat) (ns : List Node) :
    numberedBelow (numbered i ns) = (preorders ns).zipIdx i := by
  induction ns generalizing i with
  | nil => rfl
  | cons n ns ih =>
    have hsize : n.preorder.length = n.size := by
      rw [← preorders_singleton, length_preorders, sizes, sizes, Nat.add_zero]
    rw [preorders, List.zipIdx_append, hsize, ← ih]
    rfl

theorem numberedBelow_cons (v : Node × Nat) (vs : List (Node × Nat)) :
    numberedBelow (v :: vs) =
      v :: (numberedBelow (numbered (v.2 + 1) v.1.children) ++ numberedBelow vs) := by
  rw [numberedBelow_numbered, ← List.cons_append, ← List.zipIdx_cons, ← preorder_eq]
  rfl

end Node

namespace Document

section Recursion

variable (d : Document) (packs : List String)

mutual

def visitTree : Node → Progress → Except Fault Progress
  | .mk kind start stop named missing children, p =>
    match d.visit packs (.mk kind start stop named missing children) p with
    | .error f => .error f
    | .ok (q, .enter) => visitForest children q
    | .ok (q, .skip) => .ok q

def visitForest : List Node → Progress → Except Fault Progress
  | [], p => .ok p
  | n :: ns, p => do
    let q ← visitTree n p
    visitForest ns q

end

def isEdited (n : Node) : Bool :=
  match d.construct packs n >>= d.lower with
  | .ok (.edited _) => true
  | _ => false

def advance (p : Progress) (n : Node) : Except Fault Progress :=
  (d.visit packs n p).map Prod.fst

end Recursion

variable {d : Document} {packs : List String} {n : Node} {p q : Progress}

theorem visitForest_cons (n : Node) (ns : List Node) (p : Progress) :
    d.visitForest packs (n :: ns) p = d.visitTree packs n p >>= d.visitForest packs ns := by
  rw [visitForest]

theorem visitTree_of_error {f : Fault} (h : d.visit packs n p = .error f) :
    d.visitTree packs n p = .error f := by
  cases n
  rw [visitTree, h]

theorem visitTree_of_enter (h : d.visit packs n p = .ok (q, .enter)) :
    d.visitTree packs n p = d.visitForest packs n.children q := by
  cases n
  rw [visitTree, h]

theorem visitTree_of_skip (h : d.visit packs n p = .ok (q, .skip)) :
    d.visitTree packs n p = .ok q := by
  cases n
  rw [visitTree, h]

theorem visitForest_append (ns ms : List Node) (p : Progress) :
    d.visitForest packs (ns ++ ms) p =
      d.visitForest packs ns p >>= d.visitForest packs ms := by
  induction ns generalizing p with
  | nil =>
    rw [visitForest]
    rfl
  | cons n ns ih =>
    rw [List.cons_append, visitForest_cons, visitForest_cons]
    cases d.visitTree packs n p with
    | error f => rfl
    | ok q => exact ih q

/-- What is left on the stack is the rest of the recursion. -/
theorem walk_eq_visitForest (stack : List Node) (p : Progress) :
    d.walk packs stack p = d.visitForest packs stack p := by
  -- Children go on top of the stack, so with what lies below them they are a forest again.
  induction stack, p using walk.induct d packs with
  | case1 p => rw [walk_nil, visitForest]
  | case2 p n stack f hvisit =>
    rw [walk_cons_of_error hvisit, visitForest_cons, visitTree_of_error hvisit]
    rfl
  | case3 p n stack q hvisit ih =>
    rw [walk_cons_of_enter hvisit, ih, visitForest_append, visitForest_cons,
      visitTree_of_enter hvisit]
  | case4 p n stack q hvisit ih =>
    rw [walk_cons_of_skip hvisit, ih, visitForest_cons, visitTree_of_skip hvisit]
    rfl

/-! ### The first fault -/

theorem isEdited_iff : d.isEdited packs n = true ↔ ∃ e, d.Lowers packs n e := by
  constructor
  · intro h
    rw [isEdited] at h
    split at h
    case h_1 e ho =>
      obtain ⟨c, hc, ho⟩ := bind_eq_ok ho
      exact ⟨e, c, hc, ho⟩
    case h_2 => cases h
  · rintro ⟨e, c, hc, ho⟩
    rw [isEdited, hc]
    change (match d.lower c with
      | .ok (.edited _) => true
      | _ => false) = true
    rw [ho]

theorem isLowerable_of_isEdited (h : d.isEdited packs n = true) : n.isLowerable = true := by
  obtain ⟨e, c, hc, ho⟩ := isEdited_iff.1 h
  rcases lower_construct hc ho with ⟨hlow, _⟩ | ⟨_, _, hkept⟩
  · exact hlow
  · cases hkept

/-- A walk enters a node that it has visited unless the node is edited. -/
theorem isEdited_of_visit {descent : Descent} (h : d.visit packs n p = .ok (q, descent)) :
    d.isEdited packs n = (descent == .skip) := by
  rcases visit_eq_ok h with ⟨_, rfl, e, he, _⟩ | ⟨hlow, rfl, _⟩
  · exact isEdited_iff.2 ⟨e, he⟩
  · change d.isEdited packs n = false
    rw [Bool.eq_false_iff]
    intro hedited
    rw [isLowerable_of_isEdited hedited] at hlow
    cases hlow

theorem advance_of_ok {descent : Descent} (h : d.visit packs n p = .ok (q, descent)) :
    d.advance packs p n = .ok q := by
  rw [advance, h]
  rfl

theorem advance_eq_error_iff {f : Fault} :
    d.advance packs p n = .error f ↔ d.visit packs n p = .error f := by
  rw [advance]
  cases d.visit packs n p <;> simp [Except.map]

/-- The recursion visits the nodes that stand below no edited one, in document order, until a
visit fails. -/
theorem visitForest_eq_foldlM (ns : List Node) (p : Progress) :
    d.visitForest packs ns p =
      (Node.exposed (d.isEdited packs) ns).foldlM (d.advance packs) p := by
  induction ns using Node.forest_induction generalizing p with
  | nil =>
    rw [visitForest]
    rfl
  | cons n ns below behind =>
    have hns : d.visitForest packs ns =
        (Node.exposed (d.isEdited packs) ns).foldlM (d.advance packs) := funext behind
    rw [visitForest_cons]
    cases hvisit : d.visit packs n p with
    | error f =>
      -- A node whose visit fails is visited, whether its lowering gives an edit or not.
      have hfirst : ∃ rest, Node.exposed (d.isEdited packs) (n :: ns) = n :: rest := by
        cases hn : d.isEdited packs n with
        | true => exact ⟨_, Node.exposed_cons_of_pos hn ns⟩
        | false => exact ⟨_, Node.exposed_cons_of_neg hn ns⟩
      obtain ⟨rest, hrest⟩ := hfirst
      rw [visitTree_of_error hvisit, hrest, List.foldlM_cons, advance_eq_error_iff.2 hvisit]
      rfl
    | ok r =>
      obtain ⟨q, descent⟩ := r
      have hn := isEdited_of_visit hvisit
      cases descent with
      | enter =>
        rw [visitTree_of_enter hvisit, Node.exposed_cons_of_neg hn, List.foldlM_cons,
          advance_of_ok hvisit, below, hns]
        exact (List.foldlM_append ..).symm
      | skip =>
        rw [visitTree_of_skip hvisit, Node.exposed_cons_of_pos hn, List.foldlM_cons,
          advance_of_ok hvisit, hns]

/-- In document order, and without the nodes below edited ones, `n` is the first node whose
visit fails. It fails with `f`. -/
def FailsFirst (d : Document) (packs : List String) (p : Progress) (n : Node) (f : Fault) :
    Prop :=
  ∃ before after q, Node.exposed (d.isEdited packs) d.root.children = before ++ n :: after ∧
    before.foldlM (d.advance packs) p = .ok q ∧ d.visit packs n q = .error f

theorem run_eq_visitForest (p : Progress) :
    d.run packs p = d.visitForest packs d.root.children p :=
  (run_eq_walk p).trans (walk_eq_visitForest d.root.children p)

theorem run_eq_error_iff {f : Fault} :
    d.run packs p = .error f ↔ ∃ n, d.FailsFirst packs p n f := by
  rw [run_eq_visitForest, visitForest_eq_foldlM, foldlM_eq_error_iff]
  constructor
  · rintro ⟨before, n, after, q, hexposed, hbefore, hn⟩
    exact ⟨n, before, after, q, hexposed, hbefore, advance_eq_error_iff.1 hn⟩
  · rintro ⟨n, before, after, q, hexposed, hbefore, hn⟩
    exact ⟨before, n, after, q, hexposed, hbefore, advance_eq_error_iff.2 hn⟩

/-- Around its run, a pass can fail only where it cannot cut the text. -/
theorem run_eq_error_of_pass {f : Fault} (h : d.pass = .error f) (hf : f ≠ .badCut) :
    ∃ packs, d.packs = .ok packs ∧ d.run packs d.start = .error f := by
  cases hpacks : d.packs with
  | error g =>
    rw [pass_of_packs_eq_error hpacks] at h
    cases h
    exact absurd (eq_of_beq (d.failsOnly_packs f hpacks)) hf
  | ok packs =>
    refine ⟨packs, rfl, ?_⟩
    cases hrun : d.run packs d.start with
    | error g =>
      rw [pass_of_run_eq_error hpacks hrun] at h
      cases h
      rfl
    | ok p =>
      cases hresult : p.buffer.result? with
      | none =>
        rw [start] at hrun
        simp only [pass, hpacks, hrun, hresult, bind, Except.bind] at h
        exact absurd (Except.error.inj h).symm hf
      | some text =>
        have hok : d.pass = .ok ⟨text, p.buffer.sorted, p.visited⟩ :=
          pass_eq_ok_iff.2 ⟨packs, p, hpacks, hrun, hresult, rfl, rfl⟩
        rw [hok] at h
        cases h

/-! ### Turns -/

/-- How a run goes, turn by turn. It starts with the declarations that are still to come, a
stack and a progress, visits certain nodes one after the other, and ends in a result. A
declaration is taken up when the stack is empty. Otherwise the top of the stack is visited, and
its children take its place if they are to be visited. -/
inductive Course (d : Document) (packs : List String) :
    List (Node × Nat) → List (Node × Nat) → Progress → List (Node × Nat) →
      Except Fault Progress → Prop
  | done (p : Progress) : Course d packs [] [] p [] (.ok p)
  | declaration {v : Node × Nat} {vs seen : List (Node × Nat)} {p : Progress}
      {r : Except Fault Progress} (rest : Course d packs vs [v] p seen r) :
      Course d packs (v :: vs) [] p seen r
  | fault {v : Node × Nat} {vs stack : List (Node × Nat)} {p : Progress} {f : Fault}
      (visit : d.visit packs v.1 p = .error f) : Course d packs vs (v :: stack) p [v] (.error f)
  | enter {v : Node × Nat} {vs stack seen : List (Node × Nat)} {p q : Progress}
      {r : Except Fault Progress} (visit : d.visit packs v.1 p = .ok (q, .enter))
      (rest : Course d packs vs (Node.numbered (v.2 + 1) v.1.children ++ stack) q seen r) :
      Course d packs vs (v :: stack) p (v :: seen) r
  | skip {v : Node × Nat} {vs stack seen : List (Node × Nat)} {p q : Progress}
      {r : Except Fault Progress} (visit : d.visit packs v.1 p = .ok (q, .skip))
      (rest : Course d packs vs stack q seen r) : Course d packs vs (v :: stack) p (v :: seen) r

/-- Every run comes to an end. -/
theorem exists_course (d : Document) (packs : List String) (vs stack : List (Node × Nat))
    (p : Progress) : ∃ seen r, d.Course packs vs stack p seen r := by
  cases stack with
  | nil =>
    cases vs with
    | nil => exact ⟨[], .ok p, .done p⟩
    | cons v vs =>
      obtain ⟨seen, r, hrest⟩ := exists_course d packs vs [v] p
      exact ⟨seen, r, .declaration hrest⟩
  | cons v stack =>
    cases hvisit : d.visit packs v.1 p with
    | error f => exact ⟨[v], .error f, .fault hvisit⟩
    | ok result =>
      obtain ⟨q, descent⟩ := result
      cases descent with
      | enter =>
        obtain ⟨seen, r, hrest⟩ :=
          exists_course d packs vs (Node.numbered (v.2 + 1) v.1.children ++ stack) q
        exact ⟨v :: seen, r, .enter hvisit hrest⟩
      | skip =>
        obtain ⟨seen, r, hrest⟩ := exists_course d packs vs stack q
        exact ⟨v :: seen, r, .skip hvisit hrest⟩
-- A visit takes its node off the trees on the stack; taking up a declaration makes them more, but
-- leaves fewer declarations.
termination_by (vs.length, Node.sizes (stack.map Prod.fst))
decreasing_by
  · exact Prod.Lex.left _ _ (Nat.lt_succ_self _)
  · apply Prod.Lex.right
    rw [List.map_append, Node.map_fst_numbered, Node.sizes_append, List.map_cons, Node.sizes,
      Node.size_eq]
    omega
  · apply Prod.Lex.right
    have := v.1.size_pos
    rw [List.map_cons, Node.sizes]
    omega

namespace Course

variable {vs stack seen : List (Node × Nat)} {r : Except Fault Progress}

theorem result_eq (h : d.Course packs vs stack p seen r) :
    r = d.walk packs ((stack ++ vs).map Prod.fst) p := by
  induction h with
  | done p => rw [List.append_nil, List.map_nil, walk_nil]
  | declaration _ ih => exact ih
  | fault hvisit => rw [List.cons_append, List.map_cons, walk_cons_of_error hvisit]
  | enter hvisit _ ih =>
    rw [ih, List.cons_append, List.map_cons, walk_cons_of_enter hvisit, List.append_assoc,
      List.map_append, Node.map_fst_numbered]
  | skip hvisit _ ih => rw [ih, List.cons_append, List.map_cons, walk_cons_of_skip hvisit]

/-- A run visits nodes of its trees in document order, and none of them twice. -/
theorem sublist (h : d.Course packs vs stack p seen r) :
    seen.Sublist (Node.numberedBelow (stack ++ vs)) := by
  induction h with
  | done p => exact List.nil_sublist _
  | declaration _ ih => exact ih
  | fault =>
    rw [List.cons_append, Node.numberedBelow_cons]
    exact (List.nil_sublist _).cons_cons _
  | enter _ _ ih =>
    rw [List.cons_append, Node.numberedBelow_cons, ← Node.numberedBelow_append,
      ← List.append_assoc]
    exact ih.cons_cons _
  | skip _ _ ih =>
    rw [List.cons_append, Node.numberedBelow_cons]
    exact (ih.trans (List.sublist_append_right _ _)).cons_cons _

end Course

/-- A run is the recursion over the trees below the root. Its loops come to an end on every
tree; they visit nodes in document order, and none of them twice. A run fails with the fault of
the first node whose visit fails, nodes below edited ones left out. So does a pass, unless it
has no answer at all because the text cannot be cut. -/
theorem run_is_recursion (d : Document) :
    (∀ packs p, d.run packs p = d.visitForest packs d.root.children p) ∧
      (∀ packs p, ∃ seen,
        d.Course packs (Node.numbered 0 d.root.children) [] p seen (d.run packs p)) ∧
      (∀ packs p seen r, d.Course packs (Node.numbered 0 d.root.children) [] p seen r →
        r = d.run packs p ∧ seen.Sublist (preorders d.root.children).zipIdx ∧
          (seen.map Prod.snd).Nodup) ∧
      (∀ packs p f, d.run packs p = .error f ↔ ∃ n, d.FailsFirst packs p n f) ∧
      ∀ f, f ≠ .badCut → (d.pass = .error f ↔
        ∃ packs n, d.packs = .ok packs ∧ d.FailsFirst packs d.start n f) := by
  have hresult : ∀ packs p seen r, d.Course packs (Node.numbered 0 d.root.children) [] p seen r →
      r = d.run packs p := by
    intro packs p seen r h
    rw [h.result_eq, List.nil_append, Node.map_fst_numbered, run_eq_walk]
  refine ⟨fun packs p => run_eq_visitForest p, fun packs p => ?_, fun packs p seen r h => ?_,
    fun packs p f => run_eq_error_iff, fun f hf => ⟨fun hpass => ?_, ?_⟩⟩
  · obtain ⟨seen, r, h⟩ := d.exists_course packs (Node.numbered 0 d.root.children) [] p
    exact ⟨seen, hresult packs p seen r h ▸ h⟩
  · have hsublist : seen.Sublist (preorders d.root.children).zipIdx := by
      rw [← Node.numberedBelow_numbered]
      exact h.sublist
    refine ⟨hresult packs p seen r h, hsublist, (hsublist.map Prod.snd).nodup ?_⟩
    rw [List.zipIdx_map_snd]
    exact List.nodup_range'
  · obtain ⟨packs, hpacks, hrun⟩ := run_eq_error_of_pass hpass hf
    obtain ⟨n, hn⟩ := run_eq_error_iff.1 hrun
    exact ⟨packs, n, hpacks, hn⟩
  · rintro ⟨packs, n, hpacks, hn⟩
    exact pass_of_run_eq_error hpacks (run_eq_error_iff.2 ⟨n, hn⟩)

/-- A fold inside a fold, and two folds that cannot be lowered as operands of a comma. -/
def refusedOperands : Document where
  text := "((a*...)+...);((b->*...),(c.*...))"
  root := ⟨.other "translation_unit", 0, 34, true, false,
    [⟨.other "expression_statement", 0, 14, true, false,
      [⟨.foldExpression, 0, 13, true, false,
        [.token .openParen 0 1,
          ⟨.foldExpression, 1, 8, true, false,
            [.token .openParen 1 2, .token .identifier 2 3, .token (.other "*") 3 4,
              .token .ellipsis 4 7, .token .closeParen 7 8]⟩,
          .token (.other "+") 8 9, .token .ellipsis 9 12, .token .closeParen 12 13]⟩,
        .token (.other ";") 13 14]⟩,
      ⟨.parenthesized, 14, 34, true, false,
        [.token .openParen 14 15,
          ⟨.other "comma_expression", 15, 33, true, false,
            [⟨.foldExpression, 15, 24, true, false,
              [.token .openParen 15 16, .token .identifier 16 17, .token (.other "->*") 17 20,
                .token .ellipsis 20 23, .token .closeParen 23 24]⟩,
              .token .comma 24 25,
              ⟨.foldExpression, 25, 33, true, false,
                [.token .openParen 25 26, .token .identifier 26 27, .token (.other ".*") 27 29,
                  .token .ellipsis 29 32, .token .closeParen 32 33]⟩]⟩,
          .token .closeParen 33 34]⟩]⟩

theorem run_is_recursion_refusedOperands :
    refusedOperands.pass = .error (.unsupported .arrowMember 15 "(b->*...)") ∧
      (∃ packs n, refusedOperands.packs = .ok packs ∧ refusedOperands.FailsFirst packs
        refusedOperands.start n (.unsupported .arrowMember 15 "(b->*...)")) ∧
      ∃ seen : List (Node × Nat), seen.map Prod.snd = [0, 1, 12, 13, 14, 15, 16] ∧
        refusedOperands.Course [] (Node.numbered 0 refusedOperands.root.children) []
          refusedOperands.start seen (.error (.unsupported .arrowMember 15 "(b->*...)")) ∧
        seen.Sublist (preorders refusedOperands.root.children).zipIdx := by
  obtain ⟨_, _, hcourse, _, hpass⟩ := run_is_recursion refusedOperands
  have hturns : ∃ seen : List (Node × Nat), seen.map Prod.snd = [0, 1, 12, 13, 14, 15, 16] ∧
      refusedOperands.Course [] (Node.numbered 0 refusedOperands.root.children) []
        refusedOperands.start seen (.error (.unsupported .arrowMember 15 "(b->*...)")) := by
    refine ⟨_, ?_, .declaration (.enter (by rfl) (.skip (by rfl) (.enter (by rfl)
      (.declaration (.enter (by rfl) (.enter (by rfl) (.enter (by rfl) (.fault (by rfl)))))))))⟩
    rfl
  obtain ⟨seen, hnumbers, hturns⟩ := hturns
  obtain ⟨hrun, hsublist, _⟩ := hcourse _ _ _ _ hturns
  have hfails : refusedOperands.pass = .error (.unsupported .arrowMember 15 "(b->*...)") :=
    pass_of_run_eq_error (by rfl) hrun.symm
  exact ⟨hfails, (hpass _ (by decide)).1 hfails, seen, hnumbers, hturns, hsublist⟩

end Document

end Downlevel
