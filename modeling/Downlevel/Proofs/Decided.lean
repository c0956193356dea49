import Downlevel.Settle
import Downlevel.Proofs.Walk

/-!
# What passes fail with

Syntax errors are looked for before a pass, and giving up is left to the loop
around the passes. A pass over any document, also over a damaged one, ends in a
report or in a fault of its own.
-/

namespace Downlevel

variable {α β : Type}

/-- The computation does not end in giving up. -/
def Decided (x : Except Fault α) : Prop := ∀ passes, x ≠ .error (.unsettled passes)

namespace Decided

theorem ok (a : α) : Decided (.ok a) := nofun

theorem bind {x : Except Fault α} {f : α → Except Fault β} (hx : Decided x)
    (hf : ∀ a, Decided (f a)) : Decided (x >>= f) := by
  cases x with
  | error e =>
    intro passes he
    cases he
    exact hx passes rfl
  | ok a => exact hf a

end Decided

def Fault.isOfPass : Fault → Bool
  | .syntaxErrors _ | .unsettled _ => false
  | _ => true

theorem Fault.isOfPass_of_badCut (f : Fault) (h : (f == .badCut) = true) : f.isOfPass = true := by
  rw [eq_of_beq h]
  rfl

def FailsOnly (p : Fault → Bool) (x : Except Fault α) : Prop := ∀ f, x = .error f → p f = true

namespace FailsOnly

variable {p : Fault → Bool}

theorem ok (a : α) : FailsOnly p (.ok a : Except Fault α) := nofun

theorem error {f : Fault} (h : p f = true) : FailsOnly p (.error f : Except Fault α) := by
  intro g hg
  cases hg
  exact h

theorem mono {q : Fault → Bool} {x : Except Fault α} (hx : FailsOnly p x)
    (h : ∀ f, p f = true → q f = true) : FailsOnly q x := fun f hf => h f (hx f hf)

theorem bind {x : Except Fault α} {f : α → Except Fault β} (hx : FailsOnly p x)
    (hf : ∀ a, FailsOnly p (f a)) : FailsOnly p (x >>= f) := by
  cases x with
  | error e => exact error (hx e rfl)
  | ok a => exact hf a

theorem map {x : Except Fault α} (hx : FailsOnly p x) (f : α → β) : FailsOnly p (x.map f) := by
  cases x with
  | error e => exact error (hx e rfl)
  | ok a => exact ok (f a)

theorem mapM {f : α → Except Fault β} (hf : ∀ a, FailsOnly p (f a)) (xs : List α) :
    FailsOnly p (xs.mapM f) := by
  induction xs with
  | nil => exact ok []
  | cons a as ih =>
    rw [List.mapM_cons]
    exact bind (hf a) fun b => bind ih fun bs => ok (b :: bs)

end FailsOnly

theorem Node.failsOnly_assertion (n : Node) : FailsOnly Fault.isOfPass n.assertion := by
  rw [Node.assertion]
  split
  · split
    · exact .ok _
    · exact .error rfl
  · exact .error rfl

namespace Document

variable (d : Document) (packs : List String)

/-! ### Reading -/

theorem failsOnly_badCut_cut (start stop : Nat) :
    FailsOnly (· == .badCut) (d.cut start stop) := by
  rw [cut]
  split
  · exact .ok _
  · exact .error rfl

theorem failsOnly_cut (start stop : Nat) : FailsOnly Fault.isOfPass (d.cut start stop) :=
  (d.failsOnly_badCut_cut start stop).mono Fault.isOfPass_of_badCut

theorem failsOnly_resolveEnd (pos : Nat) : FailsOnly Fault.isOfPass (d.resolveEnd pos) := by
  rw [resolveEnd]
  split
  · exact .error rfl
  · split
    · exact .ok _
    · exact .error rfl

theorem failsOnly_read (s : Span) : FailsOnly Fault.isOfPass (d.read s) := by
  rw [read]
  split
  · exact .error rfl
  · exact (d.failsOnly_resolveEnd s.last).bind fun stop => d.failsOnly_cut s.first stop

theorem failsOnly_packs : FailsOnly (· == .badCut) d.packs :=
  (FailsOnly.mapM (fun t : Node => d.failsOnly_badCut_cut t.start t.stop) _).bind
    fun names => .ok names.eraseDups

theorem failsOnly_holdsPack_of_children (n : Node)
    (h : FailsOnly Fault.isOfPass (d.anyHoldsPack packs n.children)) :
    FailsOnly Fault.isOfPass (d.holdsPack packs n) := by
  obtain ⟨kind, start, stop, named, missing, children⟩ := n
  cases children with
  | nil =>
    rw [holdsPack]
    split
    · exact (d.failsOnly_cut start stop).bind fun name => .ok _
    · exact .ok _
  | cons c cs =>
    rw [holdsPack]
    split
    · exact .ok _
    · exact h

theorem failsOnly_anyHoldsPack (ns : List Node) :
    FailsOnly Fault.isOfPass (d.anyHoldsPack packs ns) := by
  induction ns using Node.forest_induction with
  | nil => exact .ok _
  | cons n ns below behind =>
    have hhead := d.failsOnly_holdsPack_of_children packs n below
    rw [anyHoldsPack]
    cases hholds : d.holdsPack packs n with
    | error f => exact .error (hhead f hholds)
    | ok b =>
      cases b with
      | true => exact .ok _
      | false => exact behind

theorem failsOnly_holdsPack (n : Node) : FailsOnly Fault.isOfPass (d.holdsPack packs n) :=
  d.failsOnly_holdsPack_of_children packs n (d.failsOnly_anyHoldsPack packs n.children)

/-! ### Constructs -/

theorem failsOnly_operatorAt (token : Node) : FailsOnly Fault.isOfPass (d.operatorAt token) := by
  refine (d.failsOnly_cut token.start token.stop).bind fun spelled => ?_
  split
  · exact .ok _
  · exact .error rfl

theorem failsOnly_direction (n left right : Node) :
    FailsOnly Fault.isOfPass (d.direction packs n left right) := by
  refine (d.failsOnly_holdsPack packs left).bind fun inLeft => ?_
  refine (d.failsOnly_holdsPack packs right).bind fun inRight => ?_
  split
  · exact .ok _
  · exact .ok _
  · exact .ok _
  · exact .ok _
  · exact (d.failsOnly_cut n.start n.stop).bind fun whole => .error rfl

theorem failsOnly_foldOf (n : Node) (span : Span) (inner : List Node) :
    FailsOnly Fault.isOfPass (d.foldOf packs n span inner) := by
  rw [foldOf.eq_def]
  split
  · rename_i a op b
    split
    · exact (d.failsOnly_operatorAt op).bind fun operator => .ok _
    · split
      · exact (d.failsOnly_operatorAt op).bind fun operator => .ok _
      · exact .error rfl
  · rename_i left op dots op' right
    split
    · refine (d.failsOnly_operatorAt op).bind fun operator => ?_
      refine (d.failsOnly_operatorAt op').bind fun operator' => ?_
      split
      · exact .error rfl
      · refine (d.failsOnly_direction packs n left right).bind fun direction => ?_
        cases direction <;> exact .ok _
    · exact .error rfl
  · exact .error rfl

theorem failsOnly_fold (n : Node) : FailsOnly Fault.isOfPass (d.fold packs n) := by
  rw [fold]
  split
  · split
    · exact .error rfl
    · exact d.failsOnly_foldOf packs n _ _
  · exact .error rfl

theorem failsOnly_construct (n : Node) : FailsOnly Fault.isOfPass (d.construct packs n) := by
  rw [construct]
  split
  · exact (d.failsOnly_fold packs n).map Construct.fold
  · exact n.failsOnly_assertion.map Construct.assertion
  · exact .ok _

theorem failsOnly_lowerFold (f : Fold) : FailsOnly Fault.isOfPass (d.lowerFold f) := by
  refine (d.failsOnly_read f.pattern).bind fun pattern => ?_
  split
  · exact .ok _
  · split
    · exact .error rfl
    · have hinit : FailsOnly Fault.isOfPass (f.init.mapM d.read) := by
        cases f.init with
        | none => exact .ok _
        | some i => exact (d.failsOnly_read i).bind fun text => .ok _
      refine hinit.bind fun init => ?_
      exact (d.failsOnly_resolveEnd f.span.last).bind fun stop => .ok _

theorem failsOnly_lowerAssertion (a : Assertion) :
    FailsOnly Fault.isOfPass (d.lowerAssertion a) := by
  rw [lowerAssertion]
  split
  · exact .ok _
  · refine (d.failsOnly_read a.condition).bind fun condition => ?_
    exact (d.failsOnly_resolveEnd a.span.last).bind fun stop => .ok _

theorem failsOnly_lower (c : Construct) : FailsOnly Fault.isOfPass (d.lower c) := by
  cases c with
  | fold f => exact d.failsOnly_lowerFold f
  | assertion a => exact d.failsOnly_lowerAssertion a
  | other => exact .ok _

/-! ### Passes -/

theorem failsOnly_visit (n : Node) (p : Progress) :
    FailsOnly Fault.isOfPass (d.visit packs n p) := by
  refine (d.failsOnly_construct packs n).bind fun construct => ?_
  refine (d.failsOnly_lower construct).bind fun outcome => ?_
  cases outcome with
  | edited e =>
    cases hrecord : p.buffer.record e with
    | error f =>
      simp only [hrecord]
      exact .error rfl
    | ok buffer =>
      simp only [hrecord]
      exact .ok _
  | kept => exact .ok _
  | rejected op span => exact (d.failsOnly_read span).bind fun whole => .error rfl

theorem failsOnly_walk (stack : List Node) (p : Progress) :
    FailsOnly Fault.isOfPass (d.walk packs stack p) := by
  induction stack, p using walk.induct d packs with
  | case1 p =>
    rw [walk_nil]
    exact .ok p
  | case2 p n stack f hvisit =>
    rw [walk_cons_of_error hvisit]
    exact .error (d.failsOnly_visit packs n p f hvisit)
  | case3 p n stack q hvisit ih =>
    rw [walk_cons_of_enter hvisit]
    exact ih
  | case4 p n stack q hvisit ih =>
    rw [walk_cons_of_skip hvisit]
    exact ih

/-- A pass fails only with faults of its own. -/
theorem failsOnly_pass : FailsOnly Fault.isOfPass d.pass := by
  refine (d.failsOnly_packs.mono Fault.isOfPass_of_badCut).bind fun packs => ?_
  rw [run_eq_walk]
  refine (d.failsOnly_walk packs _ _).bind fun p => ?_
  split
  · exact .ok _
  · exact .error rfl

end Document

theorem decided_checkedPass (parse : String → Node) (allowErrors : Bool) (text : String) :
    Decided (checkedPass parse allowErrors text) := by
  intro passes h
  have hpass : (Document.mk text (parse text)).pass ≠ .error (.unsettled passes) := fun hp => by
    cases Document.failsOnly_pass _ _ hp
  rw [checkedPass] at h
  split at h
  · exact hpass h
  · split at h
    · cases h
    · exact hpass h

end Downlevel
