import Downlevel.Pass
import Downlevel.Proofs.Forest
import Downlevel.Proofs.Recording
import Mathlib.Data.List.Forall2

/-!
# What a walk does

A visit either edits its node and leaves the nodes below it alone, or it does
nothing and goes on to them. So a walk that ends well has visited the nodes that
stand below no edited one, and has edited the outermost ones that can be lowered.
Nothing is assumed of the tree.
-/

namespace Downlevel

/-- Whether the node is to be lowered: a fold, or a static assertion that is read without a
message. -/
def Node.isLowerable (n : Node) : Bool :=
  match n.kind with
  | .foldExpression => true
  | .staticAssertion =>
    match n.assertion with
    | .ok a => a.message.isNone
    | .error _ => false
  | _ => false

theorem bind_eq_ok {α β : Type} {x : Except Fault α} {f : α → Except Fault β} {b : β}
    (h : x >>= f = .ok b) : ∃ a, x = .ok a ∧ f a = .ok b := by
  cases x with
  | error e => cases h
  | ok a => exact ⟨a, rfl, h⟩

theorem map_eq_ok {α β : Type} {x : Except Fault α} {f : α → β} {b : β}
    (h : x.map f = .ok b) : ∃ a, x = .ok a ∧ f a = b := by
  cases x with
  | error e => cases h
  | ok a => exact ⟨a, rfl, Except.ok.inj h⟩

namespace Document

variable {d : Document} {packs : List String}

def Lowers (d : Document) (packs : List String) (n : Node) (e : Edit) : Prop :=
  ∃ c, d.construct packs n = .ok c ∧ d.lower c = .ok (.edited e)

theorem lowerFold_ne_kept {f : Fold} {o : Outcome} (h : d.lowerFold f = .ok o) : o ≠ .kept := by
  obtain ⟨pattern, _, h⟩ := bind_eq_ok h
  split at h
  · cases h
    exact nofun
  · split at h
    · cases h
    · obtain ⟨init, _, h⟩ := bind_eq_ok h
      obtain ⟨stop, _, h⟩ := bind_eq_ok h
      cases h
      exact nofun

theorem lowerAssertion_of_message {a : Assertion} (h : a.message.isNone = false) :
    d.lowerAssertion a = .ok .kept := by
  rw [lowerAssertion]
  cases hm : a.message with
  | none => simp [hm] at h
  | some m => rfl

theorem lowerAssertion_eq_edited {a : Assertion} {o : Outcome} (h : a.message.isNone = true)
    (ho : d.lowerAssertion a = .ok o) : ∃ e, o = .edited e := by
  rw [lowerAssertion] at ho
  cases hm : a.message with
  | some m => simp [hm] at h
  | none =>
    rw [hm] at ho
    obtain ⟨condition, _, ho⟩ := bind_eq_ok ho
    obtain ⟨stop, _, ho⟩ := bind_eq_ok ho
    cases ho
    exact ⟨_, rfl⟩

/-- Exactly the lowerable nodes do not stay as they are, and exactly those are not entered. -/
theorem lower_construct {n : Node} {c : Construct} {o : Outcome}
    (hc : d.construct packs n = .ok c) (ho : d.lower c = .ok o) :
    (n.isLowerable = true ∧ c.descent o = .skip ∧ o ≠ .kept) ∨
      (n.isLowerable = false ∧ c.descent o = .enter ∧ o = .kept) := by
  rw [construct] at hc
  split at hc
  case h_1 hkind =>
    obtain ⟨f, _, rfl⟩ := map_eq_ok hc
    exact Or.inl ⟨by rw [Node.isLowerable, hkind], rfl, lowerFold_ne_kept ho⟩
  case h_2 hkind =>
    obtain ⟨a, ha, rfl⟩ := map_eq_ok hc
    have hlow : n.isLowerable = a.message.isNone := by rw [Node.isLowerable, hkind, ha]
    cases hmessage : a.message.isNone with
    | true =>
      obtain ⟨e, rfl⟩ := lowerAssertion_eq_edited hmessage ho
      exact Or.inl ⟨hlow.trans hmessage, rfl, nofun⟩
    | false =>
      obtain rfl : Outcome.kept = o :=
        Except.ok.inj ((lowerAssertion_of_message hmessage).symm.trans ho)
      exact Or.inr ⟨hlow.trans hmessage, rfl, rfl⟩
  case h_3 hfold hassertion =>
    cases hc
    cases ho
    refine Or.inr ⟨?_, rfl, rfl⟩
    rw [Node.isLowerable]
    split
    · exact absurd ‹_› hfold
    · exact absurd ‹_› hassertion
    · rfl

/-- What one visit does. -/
theorem visit_eq_ok {n : Node} {p q : Progress} {descent : Descent}
    (h : d.visit packs n p = .ok (q, descent)) :
    (n.isLowerable = true ∧ descent = .skip ∧ ∃ e, d.Lowers packs n e ∧
        q = ⟨{ p.buffer with edits := p.buffer.edits ++ [e] }, p.visited + 1⟩) ∨
      (n.isLowerable = false ∧ descent = .enter ∧ q = { p with visited := p.visited + 1 }) := by
  obtain ⟨c, hc, h⟩ := bind_eq_ok h
  obtain ⟨o, ho, h⟩ := bind_eq_ok h
  rcases lower_construct hc ho with ⟨hlow, hskip, hkept⟩ | ⟨hlow, henter, rfl⟩
  · cases o with
    | kept => exact absurd rfl hkept
    | rejected op span =>
      obtain ⟨whole, _, h⟩ := bind_eq_ok h
      cases h
    | edited e =>
      cases hrecord : p.buffer.record e with
      | error f =>
        simp only [hrecord] at h
        cases h
      | ok b =>
        simp only [hrecord] at h
        cases h
        refine Or.inl ⟨hlow, hskip, e, ⟨c, hc, ho⟩, ?_⟩
        rw [(Buffer.record_eq_ok_iff.1 hrecord).2.2]
  · cases h
    exact Or.inr ⟨hlow, henter, rfl⟩

theorem visit_of_kept {n : Node} {c : Construct} (hc : d.construct packs n = .ok c)
    (ho : d.lower c = .ok .kept) (p : Progress) :
    d.visit packs n p = .ok ({ p with visited := p.visited + 1 }, c.descent .kept) := by
  simp only [visit, hc, ho, bind, Except.bind]
  rfl

theorem visit_of_edited {n : Node} {c : Construct} {e : Edit} {b : Buffer} {p : Progress}
    (hc : d.construct packs n = .ok c) (ho : d.lower c = .ok (.edited e))
    (hrecord : p.buffer.record e = .ok b) :
    d.visit packs n p = .ok (⟨b, p.visited + 1⟩, c.descent (.edited e)) := by
  simp only [visit, hc, ho, hrecord, bind, Except.bind]
  rfl

/-! ### Walks -/

theorem walk_nil (p : Progress) : d.walk packs [] p = .ok p := by rw [walk]

theorem walk_cons_of_error {n : Node} {p : Progress} {f : Fault}
    (h : d.visit packs n p = .error f) (rest : List Node) :
    d.walk packs (n :: rest) p = .error f := by
  rw [walk, h]

theorem walk_cons_of_enter {n : Node} {p q : Progress}
    (h : d.visit packs n p = .ok (q, .enter)) (rest : List Node) :
    d.walk packs (n :: rest) p = d.walk packs (n.children ++ rest) q := by
  rw [walk, h]

theorem walk_cons_of_skip {n : Node} {p q : Progress}
    (h : d.visit packs n p = .ok (q, .skip)) (rest : List Node) :
    d.walk packs (n :: rest) p = d.walk packs rest q := by
  rw [walk, h]

theorem walk_append (stack rest : List Node) (p : Progress) :
    d.walk packs (stack ++ rest) p = d.walk packs stack p >>= d.walk packs rest := by
  induction stack, p using walk.induct d packs with
  | case1 p =>
    rw [walk_nil]
    rfl
  | case2 p n stack f hvisit =>
    rw [List.cons_append, walk_cons_of_error hvisit, walk_cons_of_error hvisit]
    rfl
  | case3 p n stack q hvisit ih =>
    rw [List.cons_append, walk_cons_of_enter hvisit, walk_cons_of_enter hvisit,
      ← List.append_assoc, ih]
  | case4 p n stack q hvisit ih =>
    rw [List.cons_append, walk_cons_of_skip hvisit, walk_cons_of_skip hvisit, ih]

/-- Walking the top-level declarations one after the other is one walk over all of them. -/
theorem run_eq_walk (p : Progress) : d.run packs p = d.walk packs d.root.children p := by
  rw [run]
  induction d.root.children generalizing p with
  | nil =>
    rw [walk_nil]
    rfl
  | cons n ns ih =>
    rw [List.foldlM_cons]
    change _ = d.walk packs ([n] ++ ns) p
    rw [walk_append]
    congr 1
    exact funext ih

/-- A walk that ends well has visited the exposed nodes of its stack, and recorded what the
outermost lowerable ones are lowered to, in document order. -/
theorem walk_eq_ok {stack : List Node} {p q : Progress} (h : d.walk packs stack p = .ok q) :
    q.buffer.source = p.buffer.source ∧
      q.visited = p.visited + (Node.exposed Node.isLowerable stack).length ∧
      ∃ es, q.buffer.edits = p.buffer.edits ++ es ∧
        List.Forall₂ (d.Lowers packs) (Node.outermost Node.isLowerable stack) es := by
  -- The stack is a forest, and opening its first tree keeps what is exposed in it.
  induction stack, p using walk.induct d packs with
  | case1 p =>
    rw [walk_nil] at h
    cases h
    exact ⟨rfl, rfl, [], by simp, List.Forall₂.nil⟩
  | case2 p n stack f hvisit =>
    rw [walk_cons_of_error hvisit] at h
    cases h
  | case3 p n stack p' hvisit ih =>
    rw [walk_cons_of_enter hvisit] at h
    obtain ⟨hsource, hvisited, es, hedits, hlowers⟩ := ih h
    rcases visit_eq_ok hvisit with ⟨_, hskip, _⟩ | ⟨hlow, _, rfl⟩
    · cases hskip
    · rw [Node.exposed_append] at hvisited
      rw [Node.outermost_append] at hlowers
      rw [Node.exposed_cons_of_neg hlow, Node.outermost_cons_of_neg hlow]
      refine ⟨hsource, ?_, es, hedits, hlowers⟩
      rw [hvisited, List.length_cons]
      change p.visited + 1 + _ = _
      omega
  | case4 p n stack p' hvisit ih =>
    rw [walk_cons_of_skip hvisit] at h
    obtain ⟨hsource, hvisited, es, hedits, hlowers⟩ := ih h
    rcases visit_eq_ok hvisit with ⟨hlow, _, e, he, rfl⟩ | ⟨_, henter, _⟩
    · rw [Node.exposed_cons_of_pos hlow, Node.outermost_cons_of_pos hlow]
      refine ⟨hsource, ?_, e :: es, ?_, List.Forall₂.cons he hlowers⟩
      · rw [hvisited, List.length_cons]
        change p.visited + 1 + _ = _
        omega
      · rw [hedits, List.append_assoc, List.singleton_append]
    · cases henter

end Document

end Downlevel
