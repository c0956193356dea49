import Downlevel.Proofs.Decided
import Downlevel.Proofs.PassLimit
import Mathlib.Logic.Function.Iterate

/-!
# Nested constructs

The lowerable nodes of a tree make a forest of their own, nested as they stand
below one another. A pass edits the roots of that forest. Where a parser sees
in the new text what was below them, and nothing else, each pass takes one level
off the forest: there are as many passes that edit as there are levels, and each
makes as many edits as there are nodes on its level.
-/

namespace Downlevel

structure Nesting where
  inner : List Nesting

namespace Nesting

mutual

def depth : Nesting → Nat
  | ⟨inner⟩ => depths inner + 1

def depths : List Nesting → Nat
  | [] => 0
  | t :: ts => max t.depth (depths ts)

end

mutual

def size : Nesting → Nat
  | ⟨inner⟩ => sizes inner + 1

def sizes : List Nesting → Nat
  | [] => 0
  | t :: ts => t.size + sizes ts

end

/-- The forest without its roots: what stood below them takes their place. -/
def promote (ts : List Nesting) : List Nesting := ts.flatMap inner

theorem promote_append (ts us : List Nesting) : promote (ts ++ us) = promote ts ++ promote us :=
  List.flatMap_append

theorem iterate_promote_append (i : Nat) (ts us : List Nesting) :
    promote^[i] (ts ++ us) = promote^[i] ts ++ promote^[i] us := by
  induction i generalizing ts us with
  | zero => rfl
  | succ i ih =>
    simp only [Function.iterate_succ_apply]
    rw [promote_append, ih]

theorem iterate_promote_cons (i : Nat) (t : Nesting) (ts : List Nesting) :
    promote^[i + 1] (t :: ts) = promote^[i] t.inner ++ promote^[i + 1] ts := by
  rw [Function.iterate_succ_apply, Function.iterate_succ_apply, ← iterate_promote_append]
  rfl

theorem depths_append (ts us : List Nesting) : depths (ts ++ us) = max (depths ts) (depths us) := by
  induction ts with
  | nil => simp [depths]
  | cons t ts ih => rw [List.cons_append, depths, depths, ih, max_assoc]

theorem sizes_append (ts us : List Nesting) : sizes (ts ++ us) = sizes ts + sizes us := by
  induction ts with
  | nil => simp [sizes]
  | cons t ts ih => rw [List.cons_append, sizes, sizes, ih, Nat.add_assoc]

theorem depths_eq_zero_iff {ts : List Nesting} : depths ts = 0 ↔ ts = [] := by
  cases ts with
  | nil => simp [depths]
  | cons t ts =>
    obtain ⟨inner⟩ := t
    simp [depths, depth]

theorem depths_promote (ts : List Nesting) : depths (promote ts) = depths ts - 1 := by
  induction ts with
  | nil => rfl
  | cons t ts ih =>
    obtain ⟨inner⟩ := t
    have hcons : promote (⟨inner⟩ :: ts) = inner ++ promote ts := rfl
    rw [hcons, depths_append, ih, depths, depth]
    omega

theorem depths_iterate_promote (i : Nat) (ts : List Nesting) :
    depths (promote^[i] ts) = depths ts - i := by
  induction i with
  | zero => rfl
  | succ i ih =>
    rw [Function.iterate_succ_apply', depths_promote, ih]
    omega

theorem iterate_promote_eq_nil_iff {i : Nat} {ts : List Nesting} :
    promote^[i] ts = [] ↔ depths ts ≤ i := by
  rw [← depths_eq_zero_iff, depths_iterate_promote]
  omega

theorem sizes_eq (ts : List Nesting) : sizes ts = ts.length + sizes (promote ts) := by
  induction ts with
  | nil => rfl
  | cons t ts ih =>
    obtain ⟨inner⟩ := t
    have hcons : promote (⟨inner⟩ :: ts) = inner ++ promote ts := rfl
    rw [hcons, sizes_append, sizes, size, ih, List.length_cons]
    omega

/-- The levels of a forest hold all of its nodes. -/
theorem sum_levels_eq {d : Nat} {ts : List Nesting} (h : depths ts ≤ d) :
    ((List.range d).map fun i => (promote^[i] ts).length).foldr (· + ·) 0 = sizes ts := by
  induction d generalizing ts with
  | zero =>
    obtain rfl : ts = [] := depths_eq_zero_iff.1 (Nat.le_zero.1 h)
    rfl
  | succ d ih =>
    have hdepth : depths (promote ts) ≤ d := by
      rw [depths_promote]
      omega
    have hinner := ih hdepth
    rw [List.range_succ_eq_map, List.map_cons, List.foldr_cons, List.map_map, sizes_eq, ← hinner]
    rfl

end Nesting

namespace Node

mutual

def nesting (p : Node → Bool) : Node → List Nesting
  | .mk kind start stop named missing children =>
    if p (.mk kind start stop named missing children) then [⟨nestings p children⟩]
    else nestings p children

/-- The nodes of the sort `p` in a forest, nested as they stand below one another. -/
def nestings (p : Node → Bool) : List Node → List Nesting
  | [] => []
  | n :: ns => n.nesting p ++ nestings p ns

end

/-- The number of nodes of the sort `p` that stand below exactly `i` other such nodes. -/
def countAtDepth (p : Node → Bool) (i : Nat) (ns : List Node) : Nat :=
  (occurrencesOf [] ns).countP fun o => p o.node && o.above.countP p == i

variable {p : Node → Bool}

theorem nestings_cons_of_pos {n : Node} (h : p n = true) (ns : List Node) :
    nestings p (n :: ns) = ⟨nestings p n.children⟩ :: nestings p ns := by
  cases n
  rw [nestings, nesting, if_pos h]
  rfl

theorem nestings_cons_of_neg {n : Node} (h : p n = false) (ns : List Node) :
    nestings p (n :: ns) = nestings p n.children ++ nestings p ns := by
  cases n
  rw [nestings, nesting, if_neg (by simp [h])]

/-- The roots are the outermost nodes. -/
theorem length_nestings (ns : List Node) :
    (nestings p ns).length = (outermost p ns).length := by
  induction ns using forest_induction with
  | nil => rfl
  | cons n ns below behind =>
    by_cases h : p n = true
    · rw [nestings_cons_of_pos h, outermost_cons_of_pos h, List.length_cons, List.length_cons,
        behind]
    · have hn : p n = false := by simpa using h
      rw [nestings_cons_of_neg hn, outermost_cons_of_neg hn, List.length_append,
        List.length_append, below, behind]

theorem sizes_nestings (ns : List Node) :
    Nesting.sizes (nestings p ns) = (preorders ns).countP p := by
  induction ns using forest_induction with
  | nil => rfl
  | cons n ns below behind =>
    rw [preorders, preorder_eq, List.countP_append, List.countP_cons, ← below, ← behind]
    by_cases h : p n = true
    · rw [nestings_cons_of_pos h, Nesting.sizes, Nesting.size, if_pos h]
    · have hn : p n = false := by simpa using h
      rw [nestings_cons_of_neg hn, Nesting.sizes_append, if_neg h, Nat.add_zero]

theorem countP_occurrencesOf_of_lt {above : List Node} {i : Nat} (h : i < above.countP p)
    (ns : List Node) :
    (occurrencesOf above ns).countP (fun o => p o.node && o.above.countP p == i) = 0 := by
  induction ns using forest_induction generalizing above with
  | nil => rfl
  | cons n ns below behind =>
    have hbelow : i < (above ++ [n]).countP p := by
      rw [List.countP_append]
      omega
    have hne : above.countP p ≠ i := by omega
    rw [occurrencesOf_cons, List.countP_cons, List.countP_append, below hbelow, behind h]
    simp [hne]

/-- Below `above`, the nodes on level `i` have `i` more nodes of the sort above them than
`above` holds. -/
theorem countP_occurrencesOf_add (above ns : List Node) (i : Nat) :
    (occurrencesOf above ns).countP
        (fun o => p o.node && o.above.countP p == above.countP p + i) =
      (Nesting.promote^[i] (nestings p ns)).length := by
  induction ns using forest_induction generalizing above i with
  | nil =>
    have hnil : Nesting.promote^[i] [] = [] :=
      Nesting.iterate_promote_eq_nil_iff.2 (Nat.zero_le i)
    rw [nestings, hnil]
    rfl
  | cons n ns below behind =>
    rw [occurrencesOf_cons, List.countP_cons, List.countP_append, behind]
    by_cases h : p n = true
    · rw [nestings_cons_of_pos h]
      have hsucc : (above ++ [n]).countP p = above.countP p + 1 := by simp [h]
      cases i with
      | zero =>
        -- The node is a root itself, and all that is below it is on further levels.
        rw [countP_occurrencesOf_of_lt (by omega)]
        simp [h]
      | succ i =>
        have hlevel : above.countP p + (i + 1) = (above ++ [n]).countP p + i := by omega
        have hbelow := below (above ++ [n]) i
        rw [← hlevel] at hbelow
        rw [hbelow, Nesting.iterate_promote_cons, List.length_append]
        simp
    · have hn : p n = false := by simpa using h
      have hsame : (above ++ [n]).countP p = above.countP p := by simp [hn]
      have hbelow := below (above ++ [n]) i
      rw [hsame] at hbelow
      rw [nestings_cons_of_neg hn, Nesting.iterate_promote_append, List.length_append, hbelow]
      simp [hn]

/-- Taking off `i` levels leaves the nodes on level `i` as roots. -/
theorem length_iterate_promote (ns : List Node) (i : Nat) :
    (Nesting.promote^[i] (nestings p ns)).length = countAtDepth p i ns := by
  rw [countAtDepth, ← countP_occurrencesOf_add []]
  simp

end Node

def constructs (parse : String → Node) (text : String) : List Nesting :=
  Node.nestings Node.isLowerable (parse text).children

/-- After every pass that ends well, the parser sees what stood below the edited nodes, and
nothing else that is to be lowered. -/
def Unwraps (parse : String → Node) (allowErrors : Bool) : Prop :=
  ∀ text report, checkedPass parse allowErrors text = .ok report →
    constructs parse report.text = Nesting.promote (constructs parse text)

variable {parse : String → Node} {allowErrors : Bool} {source : String}

theorem length_edits_of_checkedPass {text : String} {report : PassReport}
    (h : checkedPass parse allowErrors text = .ok report) :
    report.edits.length = (constructs parse text).length := by
  rw [constructs, Node.length_nestings]
  exact Document.length_edits_of_pass (checkedPass_eq_ok h).1

namespace Unwraps

variable (h : Unwraps parse allowErrors)

include h

theorem constructs_textAfter {i : Nat} {text : String}
    (htext : textAfter parse allowErrors source i = .ok text) :
    constructs parse text = Nesting.promote^[i] (constructs parse source) := by
  induction i generalizing text with
  | zero =>
    cases htext
    rfl
  | succ i ih =>
    obtain ⟨before, hbefore, htext⟩ := bind_eq_ok htext
    obtain ⟨report, hreport, htext⟩ := bind_eq_ok htext
    cases htext
    rw [h before report hreport, ih hbefore, Function.iterate_succ_apply']

theorem length_edits_of_passAfter {i : Nat} {report : PassReport}
    (hpass : passAfter parse allowErrors source i = .ok report) :
    report.edits.length = (Nesting.promote^[i] (constructs parse source)).length := by
  obtain ⟨text, htext, hchecked⟩ := exists_text_of_pass hpass
  rw [length_edits_of_checkedPass hchecked, h.constructs_textAfter htext]

theorem edits_eq_nil_iff {i : Nat} {report : PassReport}
    (hpass : passAfter parse allowErrors source i = .ok report) :
    report.edits = [] ↔ Nesting.depths (constructs parse source) ≤ i := by
  rw [← Nesting.iterate_promote_eq_nil_iff, ← List.length_eq_zero_iff, ← List.length_eq_zero_iff,
    h.length_edits_of_passAfter hpass]

/-- As many passes as there are levels leave nothing to edit. -/
theorem endsAfter_depths : EndsAfter parse allowErrors source
    (Nesting.depths (constructs parse source)) :=
  fun _ hpass => (h.edits_eq_nil_iff hpass).2 le_rfl

/-- A pass that edits something takes off the level that is outermost then. -/
theorem editCount_eq {i : Nat} (hedit : ¬ EndsAfter parse allowErrors source i) :
    editCount parse allowErrors source i =
      Node.countAtDepth Node.isLowerable i (parse source).children := by
  obtain ⟨report, hpass, _⟩ := exists_report_of_not_endsAfter hedit
  rw [editCount, hpass, ← Node.length_iterate_promote]
  exact h.length_edits_of_passAfter hpass

end Unwraps

namespace Limits

variable {l : Limits}

/-- Where passes unwrap what they edit, settling takes one pass for each level of nesting and
one to see that nothing is left. -/
theorem passes_eq_of_settle (h : Unwraps parse l.allowErrors) {s : Settled}
    (hsettle : l.settle parse source = .ok s) :
    s.passes = Nesting.depths (constructs parse source) + 1 ∧ s.passes ≤ l.passes ∧
      s.edits = (List.range (Nesting.depths (constructs parse source))).map fun i =>
        Node.countAtDepth Node.isLowerable i (parse source).children := by
  obtain ⟨k, hk, hedit, ⟨report, hpass, hnil⟩, hpasses, hedits⟩ := exists_end_of_settle hsettle
  have hle : Nesting.depths (constructs parse source) ≤ k := (h.edits_eq_nil_iff hpass).1 hnil
  have hge : k ≤ Nesting.depths (constructs parse source) := by
    by_contra hlt
    exact hedit _ (not_le.1 hlt) h.endsAfter_depths
  obtain rfl : k = Nesting.depths (constructs parse source) := le_antisymm hge hle
  refine ⟨hpasses, hpasses ▸ hk, hedits.trans (List.map_congr_left fun i hi => ?_)⟩
  exact h.editCount_eq (hedit i (List.mem_range.1 hi))

/-- Where passes unwrap what they edit, a limit on passes allows for that many levels of nesting.
A text that is not nested more deeply settles unless a pass fails, and one that is never does. -/
theorem settle_by_levels (h : Unwraps parse l.allowErrors)
    (hcount : l.maxPasses < UInt64.size - 1) (source : String) :
    (Nesting.depths (constructs parse source) ≤ l.maxPasses →
      (∀ passes, l.settle parse source ≠ .error (.unsettled passes)) ∧
        ∀ s, l.settle parse source = .ok s →
          s.passes = Nesting.depths (constructs parse source) + 1 ∧
            s.edits = (List.range (Nesting.depths (constructs parse source))).map (fun i =>
              Node.countAtDepth Node.isLowerable i (parse source).children) ∧
            s.totalEdits = (Node.preorders (parse source).children).countP Node.isLowerable) ∧
      (l.maxPasses < Nesting.depths (constructs parse source) →
        ∀ s, l.settle parse source ≠ .ok s) := by
  have hceiling : passCeiling = UInt64.size - 1 := rfl
  have hpasses : l.passes = l.maxPasses + 1 := by
    rw [passes, hceiling]
    omega
  refine ⟨fun hle => ⟨fun passes hgive => ?_, fun s hs => ?_⟩, fun hlt s hs => ?_⟩
  · exact (settle_eq_unsettled_iff.1 hgive).2 _ (by omega) h.endsAfter_depths
  · obtain ⟨hcounted, _, hedits⟩ := passes_eq_of_settle h hs
    refine ⟨hcounted, hedits, ?_⟩
    simp only [Settled.totalEdits, hedits, ← Node.length_iterate_promote]
    exact (Nesting.sum_levels_eq le_rfl).trans (Node.sizes_nestings _)
  · obtain ⟨hcounted, hwithin, _⟩ := passes_eq_of_settle h hs
    omega

/-- A parser that knows a fold inside a fold beside a static assertion, and what a pass makes
of them. It takes every other text for a single name. -/
def parseNested (text : String) : Node :=
  if text = Document.foldInFold.text then Document.foldInFold.root
  else if text = Document.foldInFoldReport.text then
    ⟨.other "translation_unit", 0, 54, true, false,
      [⟨.other "call_expression", 0, 32, true, false,
        [.token .identifier 0 19, .token .openParen 19 20,
          ⟨.packExpansion, 20, 31, true, false,
            [⟨.foldExpression, 20, 28, true, false,
              [.token .openParen 20 21, .token .identifier 21 23, .token (.other "*") 23 24,
                .token .ellipsis 24 27, .token .closeParen 27 28]⟩,
              .token .ellipsis 28 31]⟩,
          .token .closeParen 31 32]⟩,
        .token (.other ";") 32 33,
        ⟨.staticAssertion, 33, 54, true, false,
          [.token (.other "static_assert") 33 46, .token .openParen 46 47,
            .token .identifier 47 48, .token .comma 48 49,
            ⟨.stringLiteral, 50, 52, true, false, []⟩, .token .closeParen 52 53,
            .token (.other ";") 53 54]⟩]⟩
  else
    ⟨.other "translation_unit", 0, text.utf8ByteSize, true, false,
      [.token .identifier 0 text.utf8ByteSize]⟩

def unnested : String := "fold_expr_add_right(fold_expr_mul_right(é...)...);static_assert(b, \"\");"

theorem checkedPass_parseNested :
    checkedPass parseNested false Document.foldInFold.text = .ok Document.foldInFoldReport :=
  Document.pass_foldInFold

theorem checkedPass_parseNested_inner :
    checkedPass parseNested false Document.foldInFoldReport.text = .ok ⟨unnested,
      [⟨20, 28, "fold_expr_mul_right(é...)", some "fold over `*`"⟩], 16⟩ := by
  change (Document.mk Document.foldInFoldReport.text
    (parseNested Document.foldInFoldReport.text)).pass = _
  refine Document.pass_eq_of_walk [] (by rfl) ?_ (by decide) (by decide) (by decide +kernel)
  iterate 4 refine Eq.trans (Document.walk_cons_of_enter (by rfl) _) ?_
  refine Eq.trans (Document.walk_cons_of_skip (by rfl) _) ?_
  iterate 11 refine Eq.trans (Document.walk_cons_of_enter (by rfl) _) ?_
  exact Document.walk_nil _

theorem constructs_parseNested_of_ne {text : String} (h : text ≠ Document.foldInFold.text)
    (h' : text ≠ Document.foldInFoldReport.text) : constructs parseNested text = [] := by
  rw [constructs, parseNested, if_neg h, if_neg h']
  rfl

theorem unwraps_parseNested : Unwraps parseNested false := by
  intro text report hpass
  by_cases h : text = Document.foldInFold.text
  · subst h
    obtain rfl : Document.foldInFoldReport = report :=
      Except.ok.inj (checkedPass_parseNested.symm.trans hpass)
    rfl
  by_cases h' : text = Document.foldInFoldReport.text
  · subst h'
    rw [← Except.ok.inj (checkedPass_parseNested_inner.symm.trans hpass)]
    rfl
  · have hnone := constructs_parseNested_of_ne h h'
    have hnil : report.edits = [] := by
      rw [← List.length_eq_zero_iff, length_edits_of_checkedPass hpass, hnone]
      rfl
    have htext : report.text = text :=
      Document.text_eq_of_pass (checkedPass_eq_ok hpass).1 hnil
    rw [htext, hnone]
    rfl

theorem isSettled_unnested : IsSettled parseNested false unnested := by
  refine ⟨⟨unnested, [], 1⟩, ?_, rfl⟩
  change (Document.mk unnested (parseNested unnested)).pass = _
  refine Document.pass_eq_of_walk [] (by rfl) ?_ (by decide) (by decide) rfl
  refine Eq.trans (Document.walk_cons_of_enter (by rfl) _) ?_
  exact Document.walk_nil _

theorem settle_by_levels_parseNested :
    Unwraps parseNested false ∧
      Nesting.depths (constructs parseNested Document.foldInFold.text) = 2 ∧
      settle parseNested ⟨2, false⟩ Document.foldInFold.text = .ok ⟨unnested, 3, [2, 1], true⟩ ∧
      (Node.preorders Document.foldInFold.root.children).countP Node.isLowerable = 3 ∧
      ∀ s, settle parseNested ⟨1, false⟩ Document.foldInFold.text ≠ .ok s := by
  have hsettle : settle parseNested ⟨2, false⟩ Document.foldInFold.text =
      .ok ⟨unnested, 3, [2, 1], true⟩ :=
    (settleFrom_of_edits checkedPass_parseNested (by decide) 2).trans <|
      (settleFrom_of_edits checkedPass_parseNested_inner (by decide) 1).trans <|
        settleFrom_of_isSettled isSettled_unnested 0
  have hdepth : Nesting.depths (constructs parseNested Document.foldInFold.text) = 2 := by rfl
  obtain ⟨_, _, htotal⟩ := ((settle_by_levels (l := ⟨2, false⟩) unwraps_parseNested (by decide)
    Document.foldInFold.text).1 (by rw [hdepth])).2 _ hsettle
  have hgive := (settle_by_levels (l := ⟨1, false⟩) unwraps_parseNested (by decide)
    Document.foldInFold.text).2 (by rw [hdepth]; decide)
  exact ⟨unwraps_parseNested, hdepth, hsettle, htotal.symm, hgive⟩

end Limits

end Downlevel
