import Downlevel.Tree.Node

/-!
# Forests

The children of a node, and every stack of a pass, are forests: lists of trees.
Each property of a tree is proved for forests by the one induction below.

An occurrence is a node together with the nodes above it. A pass visits the
nodes that no node of some sort stands above, and edits those of that sort
among them: the exposed and the outermost ones.
-/

namespace Downlevel

namespace Node

/-- A forest is empty, or it starts with a tree, whose children are a forest too. -/
@[elab_as_elim]
theorem forest_induction {motive : List Node → Prop} (nil : motive [])
    (cons : ∀ n ns, motive n.children → motive ns → motive (n :: ns)) (ns : List Node) :
    motive ns := by
  match ns with
  | [] => exact nil
  | n :: ns =>
    exact cons n ns (forest_induction nil cons n.children) (forest_induction nil cons ns)
termination_by sizes ns
decreasing_by
  · cases n
    simp only [sizes, size]
    omega
  · have := n.size_pos
    simp only [sizes]
    omega

theorem preorder_eq (n : Node) : n.preorder = n :: preorders n.children := by
  cases n
  rfl

theorem mem_preorder_self (n : Node) : n ∈ n.preorder := by
  rw [preorder_eq]
  exact List.mem_cons_self

theorem mem_preorder_of_below {n m : Node} (h : m ∈ preorders n.children) : m ∈ n.preorder := by
  rw [preorder_eq]
  exact List.mem_cons_of_mem n h

theorem mem_preorders_cons {m n : Node} {ns : List Node} :
    m ∈ preorders (n :: ns) ↔ m = n ∨ m ∈ preorders n.children ∨ m ∈ preorders ns := by
  rw [preorders, preorder_eq, List.mem_append, List.mem_cons, or_assoc]

theorem mem_preorders_head (n : Node) (ns : List Node) : n ∈ preorders (n :: ns) :=
  mem_preorders_cons.2 (Or.inl rfl)

theorem mem_preorders_cons_of_below {m n : Node} {ns : List Node}
    (h : m ∈ preorders n.children) : m ∈ preorders (n :: ns) :=
  mem_preorders_cons.2 (Or.inr (Or.inl h))

theorem mem_preorders_cons_of_behind {m n : Node} {ns : List Node} (h : m ∈ preorders ns) :
    m ∈ preorders (n :: ns) :=
  mem_preorders_cons.2 (Or.inr (Or.inr h))

theorem preorders_append (ns ms : List Node) :
    preorders (ns ++ ms) = preorders ns ++ preorders ms := by
  induction ns with
  | nil => rfl
  | cons n ns ih => rw [List.cons_append, preorders, preorders, ih, List.append_assoc]

theorem mem_preorders_of_mem {n : Node} {ns : List Node} (h : n ∈ ns) : n ∈ preorders ns := by
  induction ns with
  | nil => cases h
  | cons m ms ih =>
    rcases List.mem_cons.1 h with rfl | h
    · exact mem_preorders_head n ms
    · exact mem_preorders_cons_of_behind (ih h)

/-- What lies below a node of a forest lies in the forest. -/
theorem mem_preorders_of_below {n m : Node} {ns : List Node} (hn : n ∈ preorders ns)
    (hm : m ∈ preorders n.children) : m ∈ preorders ns := by
  induction ns using forest_induction with
  | nil => cases hn
  | cons k ks below behind =>
    rcases mem_preorders_cons.1 hn with rfl | hn | hn
    · exact mem_preorders_cons_of_below hm
    · exact mem_preorders_cons_of_below (below hn)
    · exact mem_preorders_cons_of_behind (behind hn)

theorem mem_preorders_of_mem_preorder {n m : Node} {ns : List Node} (hn : n ∈ preorders ns)
    (hm : m ∈ n.preorder) : m ∈ preorders ns := by
  rw [preorder_eq, List.mem_cons] at hm
  rcases hm with rfl | hm
  · exact hn
  · exact mem_preorders_of_below hn hm

@[simp] theorem preorders_singleton (n : Node) : preorders [n] = n.preorder := by
  rw [preorders, preorders, List.append_nil]

theorem mem_preorders_of_child {n c : Node} {ns : List Node} (hn : n ∈ preorders ns)
    (hc : c ∈ n.children) : c ∈ preorders ns :=
  mem_preorders_of_below hn (mem_preorders_of_mem hc)

theorem firstError?_eq (n : Node) :
    n.firstError? = if n.isError then some n else firstErrorOf? n.children := by
  cases n
  rfl

theorem firstErrorOf?_eq_find? (ns : List Node) :
    firstErrorOf? ns = (preorders ns).find? isError := by
  induction ns using forest_induction with
  | nil => rfl
  | cons n ns below behind =>
    rw [firstErrorOf?, firstError?_eq, preorders, preorder_eq, List.find?_append, List.find?_cons,
      ← below, ← behind]
    cases n.isError with
    | true => rfl
    | false => cases firstErrorOf? n.children <;> rfl

/-- The first syntax error is the first one in preorder. -/
theorem firstError?_eq_find? (n : Node) : n.firstError? = n.preorder.find? isError := by
  rw [firstError?_eq, preorder_eq, List.find?_cons, firstErrorOf?_eq_find?]
  cases n.isError <;> rfl

theorem firstError?_eq_none_iff {n : Node} :
    n.firstError? = none ↔ ∀ m ∈ n.preorder, m.isError = false := by
  rw [firstError?_eq_find?, List.find?_eq_none]
  simp only [Bool.not_eq_true]

end Node

/-- A node of a forest with the nodes above it, the outermost one first. -/
structure Occurrence where
  above : List Node
  node : Node

def Occurrence.isExposed (p : Node → Bool) (o : Occurrence) : Bool := !o.above.any p

namespace Node

mutual

/-- The nodes of a tree that stands below `above`, in document order. -/
def occurrences (above : List Node) : Node → List Occurrence
  | .mk kind start stop named missing children =>
    ⟨above, .mk kind start stop named missing children⟩ ::
      occurrencesOf (above ++ [.mk kind start stop named missing children]) children

def occurrencesOf (above : List Node) : List Node → List Occurrence
  | [] => []
  | n :: ns => n.occurrences above ++ occurrencesOf above ns

end

def exposed (p : Node → Bool) (ns : List Node) : List Node :=
  ((occurrencesOf [] ns).filter (·.isExposed p)).map (·.node)

def outermost (p : Node → Bool) (ns : List Node) : List Node :=
  (exposed p ns).filter p

theorem occurrencesOf_cons (above : List Node) (n : Node) (ns : List Node) :
    occurrencesOf above (n :: ns) =
      ⟨above, n⟩ :: (occurrencesOf (above ++ [n]) n.children ++ occurrencesOf above ns) := by
  cases n
  rfl

theorem map_node_occurrencesOf (above ns : List Node) :
    (occurrencesOf above ns).map (·.node) = preorders ns := by
  induction ns using forest_induction generalizing above with
  | nil => rfl
  | cons n ns below behind =>
    rw [occurrencesOf_cons, List.map_cons, List.map_append, below, behind, preorders, preorder_eq]
    rfl

theorem filter_occurrencesOf_of_any {p : Node → Bool} {above : List Node}
    (h : above.any p = true) (ns : List Node) :
    (occurrencesOf above ns).filter (·.isExposed p) = [] := by
  induction ns using forest_induction generalizing above with
  | nil => rfl
  | cons n ns below behind =>
    rw [occurrencesOf_cons, List.filter_cons_of_neg (by simp [Occurrence.isExposed, h]),
      List.filter_append, below (by simp [h]), behind h, List.append_nil]

theorem map_filter_occurrencesOf_cons {p : Node → Bool} {above : List Node}
    (h : above.any p = false) (n : Node) (ns : List Node) :
    ((occurrencesOf above (n :: ns)).filter (·.isExposed p)).map (·.node) =
      n :: (((occurrencesOf (above ++ [n]) n.children).filter (·.isExposed p)).map (·.node) ++
        ((occurrencesOf above ns).filter (·.isExposed p)).map (·.node)) := by
  rw [occurrencesOf_cons, List.filter_cons_of_pos (by simp [Occurrence.isExposed, h]),
    List.filter_append, List.map_cons, List.map_append]

/-- Nodes above that are not of the sort hide nothing. -/
theorem map_filter_occurrencesOf {p : Node → Bool} {above : List Node}
    (h : above.any p = false) (ns : List Node) :
    ((occurrencesOf above ns).filter (·.isExposed p)).map (·.node) = exposed p ns := by
  -- `exposed` starts with nothing above, and the list grows on the way down.
  induction ns using forest_induction generalizing above with
  | nil => rfl
  | cons n ns below behind =>
    rw [exposed, map_filter_occurrencesOf_cons h, map_filter_occurrencesOf_cons List.any_nil,
      behind h, exposed]
    by_cases hn : p n = true
    · have hany : ∀ l : List Node, (l ++ [n]).any p = true := by simp [hn]
      rw [filter_occurrencesOf_of_any (hany above), filter_occurrencesOf_of_any (hany [])]
    · rw [below (by simp [h, hn]), below (by simp [hn])]

@[simp] theorem exposed_nil (p : Node → Bool) : exposed p [] = [] := rfl

theorem exposed_cons_of_pos {p : Node → Bool} {n : Node} (h : p n = true) (ns : List Node) :
    exposed p (n :: ns) = n :: exposed p ns := by
  rw [exposed, map_filter_occurrencesOf_cons List.any_nil,
    filter_occurrencesOf_of_any (by simp [h])]
  rfl

theorem exposed_cons_of_neg {p : Node → Bool} {n : Node} (h : p n = false) (ns : List Node) :
    exposed p (n :: ns) = n :: (exposed p n.children ++ exposed p ns) := by
  rw [exposed, map_filter_occurrencesOf_cons List.any_nil,
    map_filter_occurrencesOf (by simp [h])]
  rfl

theorem exposed_append (p : Node → Bool) (ns ms : List Node) :
    exposed p (ns ++ ms) = exposed p ns ++ exposed p ms := by
  induction ns with
  | nil => rfl
  | cons n ns ih =>
    by_cases h : p n = true
    · simp [exposed_cons_of_pos h, ih]
    · have hn : p n = false := by simpa using h
      simp [exposed_cons_of_neg hn, ih]

@[simp] theorem outermost_nil (p : Node → Bool) : outermost p [] = [] := rfl

theorem outermost_cons_of_pos {p : Node → Bool} {n : Node} (h : p n = true) (ns : List Node) :
    outermost p (n :: ns) = n :: outermost p ns := by
  rw [outermost, exposed_cons_of_pos h, List.filter_cons_of_pos h, outermost]

theorem outermost_cons_of_neg {p : Node → Bool} {n : Node} (h : p n = false) (ns : List Node) :
    outermost p (n :: ns) = outermost p n.children ++ outermost p ns := by
  rw [outermost, exposed_cons_of_neg h, List.filter_cons_of_neg (by simp [h]),
    List.filter_append, outermost, outermost]

theorem outermost_append (p : Node → Bool) (ns ms : List Node) :
    outermost p (ns ++ ms) = outermost p ns ++ outermost p ms := by
  rw [outermost, exposed_append, List.filter_append, outermost, outermost]

theorem mem_preorders_of_mem_outermost {p : Node → Bool} {n : Node} {ns : List Node}
    (h : n ∈ outermost p ns) : n ∈ preorders ns := by
  obtain ⟨o, ho, rfl⟩ := List.mem_map.1 (List.mem_filter.1 h).1
  rw [← map_node_occurrencesOf []]
  exact List.mem_map_of_mem (List.mem_filter.1 ho).1

/-- Where no node is outermost, there is none at any depth. -/
theorem outermost_eq_nil_iff {p : Node → Bool} {ns : List Node} :
    outermost p ns = [] ↔ ∀ n ∈ preorders ns, p n = false := by
  induction ns using forest_induction with
  | nil => simp [preorders]
  | cons n ns below behind =>
    by_cases h : p n = true
    · rw [outermost_cons_of_pos h]
      constructor
      · intro hnil
        cases hnil
      · intro hall
        have := hall n (mem_preorders_head n ns)
        simp [h] at this
    · have hn : p n = false := by simpa using h
      rw [outermost_cons_of_neg hn, List.append_eq_nil_iff, below, behind]
      constructor
      · rintro ⟨hb, hr⟩ m hm
        rcases mem_preorders_cons.1 hm with rfl | hm | hm
        · exact hn
        · exact hb m hm
        · exact hr m hm
      · intro hall
        exact ⟨fun m hm => hall m (mem_preorders_cons_of_below hm),
          fun m hm => hall m (mem_preorders_cons_of_behind hm)⟩

end Node

end Downlevel
