import Downlevel.Proofs.Legible
import Downlevel.Proofs.Walk

/-!
# One pass

A pass that ends well has edited exactly the outermost lowerable nodes. On a
well-formed document its edits stand in order and apart, each inside its node,
and the text is the source with the edits spliced in; if it fails, then it has
refused a construct, and says where.
-/

namespace Downlevel

theorem packTokens_subset (ns : List Node) : packTokens ns ⊆ ns := by
  fun_induction packTokens ns with
  | case1 => exact List.Subset.refl _
  | case2 n => exact List.nil_subset _
  | case3 a b rest _ ih =>
    intro t ht
    rcases List.mem_cons.1 ht with rfl | ht
    · simp
    · exact List.mem_cons_of_mem a (ih ht)
  | case4 a b rest _ ih =>
    intro t ht
    exact List.mem_cons_of_mem a (ih ht)

def Node.token (kind : Kind) (start stop : Nat) : Node :=
  ⟨kind, start, stop, kind == .identifier, false, []⟩

/-- An edit behind all recorded ones is recorded. -/
theorem Buffer.record_eq_of_behind {b : Buffer} {e : Edit} (hfits : e.Fits b.source)
    (hbehind : ∀ f ∈ b.edits, f.stop ≤ e.start) :
    b.record e = .ok { b with edits := b.edits ++ [e] } := by
  refine record_eq_ok_iff.2 ⟨hfits, fun f hf => ?_, rfl⟩
  exact Edit.overlaps_eq_false_iff.2 (Or.inr (hbehind f hf))

namespace Document

open Node (preorders)

variable {d : Document} {packs : List String}

def start (d : Document) : Progress := ⟨⟨d.text, []⟩, 0⟩

theorem pass_eq_ok_iff {report : PassReport} :
    d.pass = .ok report ↔ ∃ packs p, d.packs = .ok packs ∧ d.run packs d.start = .ok p ∧
      p.buffer.result? = some report.text ∧ report.edits = p.buffer.sorted ∧
      report.visited = p.visited := by
  constructor
  · intro h
    obtain ⟨packs, hpacks, h⟩ := bind_eq_ok h
    obtain ⟨p, hrun, h⟩ := bind_eq_ok h
    cases hresult : p.buffer.result? with
    | none =>
      simp only [hresult] at h
      cases h
    | some text =>
      simp only [hresult] at h
      cases h
      exact ⟨packs, p, hpacks, hrun, hresult, rfl, rfl⟩
  · rintro ⟨packs, p, hpacks, hrun, hresult, hedits, hvisited⟩
    obtain ⟨text, edits, visited⟩ := report
    obtain rfl : edits = p.buffer.sorted := hedits
    obtain rfl : visited = p.visited := hvisited
    rw [start] at hrun
    simp only [pass, hpacks, hrun, hresult, bind, Except.bind]
    rfl

theorem pass_of_packs_eq_error {f : Fault} (h : d.packs = .error f) : d.pass = .error f := by
  simp only [pass, h, bind, Except.bind]

theorem pass_of_run_eq_error {f : Fault} (hpacks : d.packs = .ok packs)
    (h : d.run packs d.start = .error f) : d.pass = .error f := by
  rw [start] at h
  simp only [pass, hpacks, h, bind, Except.bind]

/-- A walk whose edits stand in order and apart makes a report of them. -/
theorem pass_eq_of_walk {text : String} {edits : List Edit} {visited : Nat} (packs : List String)
    (hpacks : d.packs = .ok packs)
    (hwalk : d.walk packs d.root.children d.start = .ok ⟨⟨d.text, edits⟩, visited⟩)
    (hle : ∀ e ∈ edits, e.start ≤ e.stop) (hord : Edit.InOrder edits)
    (htext : Buffer.applyAll? d.text edits = some text) :
    d.pass = .ok ⟨text, edits, visited⟩ := by
  have hsorted : (Buffer.mk d.text edits).sorted = edits := Buffer.sorted_eq_edits hle hord
  refine pass_eq_ok_iff.2 ⟨packs, _, hpacks, (run_eq_walk _).trans hwalk, ?_, hsorted.symm, rfl⟩
  rw [Buffer.result?, hsorted, htext]

theorem run_eq_ok {p : Progress} (h : d.run packs d.start = .ok p) :
    p.buffer.source = d.text ∧
      p.visited = (Node.exposed Node.isLowerable d.root.children).length ∧
      List.Forall₂ (d.Lowers packs) (Node.outermost Node.isLowerable d.root.children)
        p.buffer.edits := by
  rw [run_eq_walk] at h
  obtain ⟨hsource, hvisited, es, hedits, hlowers⟩ := walk_eq_ok h
  have hedits' : p.buffer.edits = es := hedits
  rw [hedits']
  exact ⟨hsource, by rw [hvisited]; exact Nat.zero_add _, hlowers⟩

def foldInFold : Document where
  text := "((é*...)+/**/...);static_assert(b);"
  root := ⟨.other "translation_unit", 0, 36, true, false,
    [⟨.other "expression_statement", 0, 19, true, false,
      [⟨.foldExpression, 0, 18, true, false,
        [.token .openParen 0 1,
          ⟨.foldExpression, 1, 9, true, false,
            [.token .openParen 1 2, .token .identifier 2 4, .token (.other "*") 4 5,
              .token .ellipsis 5 8, .token .closeParen 8 9]⟩,
          .token (.other "+") 9 10, .token .comment 10 14, .token .ellipsis 14 17,
          .token .closeParen 17 18]⟩,
        .token (.other ";") 18 19]⟩,
      ⟨.staticAssertion, 19, 36, true, false,
        [.token (.other "static_assert") 19 32, .token .openParen 32 33,
          .token .identifier 33 34, .token .closeParen 34 35, .token (.other ";") 35 36]⟩]⟩

/-- What a pass makes of `foldInFold`. The inner fold is left to the next pass. -/
def foldInFoldReport : PassReport where
  text := "fold_expr_add_right((é*...)...);static_assert(b, \"\");"
  edits :=
    [⟨0, 18, "fold_expr_add_right((é*...)...)", some "fold over `+`"⟩,
      ⟨19, 35, "static_assert(b, \"\")", some "static_assert message"⟩]
  visited := 4

theorem pass_foldInFold : foldInFold.pass = .ok foldInFoldReport := by
  refine pass_eq_of_walk [] (by rfl) ?_ (by decide) (by decide) (by decide +kernel)
  refine Eq.trans (walk_cons_of_enter (by rfl) _) ?_
  refine Eq.trans (walk_cons_of_skip (by rfl) _) ?_
  refine Eq.trans (walk_cons_of_enter (by rfl) _) ?_
  refine Eq.trans (walk_cons_of_skip (by rfl) _) ?_
  exact walk_nil _

/-- A pass that ends well makes one edit for each outermost lowerable node. -/
theorem length_edits_of_pass {report : PassReport} (h : d.pass = .ok report) :
    report.edits.length = (Node.outermost Node.isLowerable d.root.children).length := by
  obtain ⟨packs, p, _, hrun, _, hedits, _⟩ := pass_eq_ok_iff.1 h
  obtain ⟨_, _, hlowers⟩ := run_eq_ok hrun
  rw [hedits, Buffer.sorted, List.length_mergeSort, hlowers.length_eq]

theorem edits_eq_nil_iff_of_pass {report : PassReport} (h : d.pass = .ok report) :
    report.edits = [] ↔ ∀ n ∈ preorders d.root.children, n.isLowerable = false := by
  rw [← Node.outermost_eq_nil_iff, ← List.length_eq_zero_iff, ← List.length_eq_zero_iff,
    length_edits_of_pass h]

/-- A pass without edits gives the text back as it was. -/
theorem text_eq_of_pass {report : PassReport} (h : d.pass = .ok report)
    (hnil : report.edits = []) : report.text = d.text := by
  obtain ⟨packs, p, _, hrun, hresult, hedits, _⟩ := pass_eq_ok_iff.1 h
  rw [Buffer.result?, ← hedits, hnil, (run_eq_ok hrun).1] at hresult
  exact (Option.some.inj hresult).symm

/-- Wherever a pass ends well, it has edited the outermost lowerable nodes and visited what
stands below none of them. In particular it edits nothing only if nothing is left at any
depth. -/
theorem pass_edits_outermost {report : PassReport} (h : d.pass = .ok report) :
    report.edits.length = (Node.outermost Node.isLowerable d.root.children).length ∧
      report.visited = (Node.exposed Node.isLowerable d.root.children).length ∧
      (report.edits = [] ↔ ∀ n ∈ preorders d.root.children, n.isLowerable = false) := by
  obtain ⟨packs, p, _, hrun, _, _, hvisited⟩ := pass_eq_ok_iff.1 h
  obtain ⟨_, hcount, _⟩ := run_eq_ok hrun
  exact ⟨length_edits_of_pass h, hvisited.trans hcount, edits_eq_nil_iff_of_pass h⟩

theorem pass_edits_outermost_foldInFold :
    foldInFold.pass = .ok foldInFoldReport ∧
      (Node.outermost Node.isLowerable foldInFold.root.children).length = 2 ∧
      (Node.exposed Node.isLowerable foldInFold.root.children).length = 4 := by
  obtain ⟨hedits, hvisited, _⟩ := pass_edits_outermost pass_foldInFold
  exact ⟨pass_foldInFold, hedits.symm, hvisited.symm⟩

/-! ### Well-formed documents -/

/-- An edit that a node of a well-formed document is lowered to lies inside the node. -/
theorem WellFormed.editsInside (h : d.WellFormed) {n : Node}
    (hn : n ∈ preorders d.root.children) {e : Edit} (he : d.Lowers packs n e) :
    d.EditsInside n e := by
  obtain ⟨c, hc, ho⟩ := he
  exact (yields_lower ((h.yields_construct hn packs).of_eq_ok hc)).of_eq_ok ho

theorem exists_editsInside {ns : List Node} {es : List Edit}
    (h : List.Forall₂ d.EditsInside ns es) {e : Edit} (he : e ∈ es) :
    ∃ n ∈ ns, d.EditsInside n e := by
  induction h with
  | nil => cases he
  | @cons n f ns es hf _ ih =>
    rcases List.mem_cons.1 he with rfl | he
    · exact ⟨n, List.mem_cons_self, hf⟩
    · obtain ⟨m, hm, hme⟩ := ih he
      exact ⟨m, List.mem_cons_of_mem n hm, hme⟩

/-- Edits inside nodes that stand in order and apart do so too. -/
theorem inOrder_of_editsInside {ns : List Node} {es : List Edit}
    (h : List.Forall₂ d.EditsInside ns es) (hns : ns.Pairwise fun a b => a.stop ≤ b.start) :
    Edit.InOrder es := by
  induction h with
  | nil => exact List.Pairwise.nil
  | @cons n e ns es he hes ih =>
    obtain ⟨hbefore, hns⟩ := List.pairwise_cons.1 hns
    refine List.Pairwise.cons (fun f hf => ?_) (ih hns)
    obtain ⟨m, hm, hmf⟩ := exists_editsInside hes hf
    exact (he.stop_le_stop.trans (hbefore m hm)).trans hmf.start_le_start

/-- Every edit of a run over a well-formed document lies inside the node that it comes from. -/
theorem WellFormed.run_editsInside (h : d.WellFormed) {p : Progress}
    (hrun : d.run packs d.start = .ok p) :
    List.Forall₂ d.EditsInside (Node.outermost Node.isLowerable d.root.children)
      p.buffer.edits := by
  obtain ⟨_, _, hlowers⟩ := run_eq_ok hrun
  have hmem : ∀ n ∈ Node.outermost Node.isLowerable d.root.children,
      n ∈ preorders d.root.children := fun n hn => Node.mem_preorders_of_mem_outermost hn
  exact ((List.forall₂_and_left _ _).2 ⟨hmem, hlowers⟩).imp fun n e hne => h.editsInside hne.1 hne.2

theorem WellFormed.run_inOrder (h : d.WellFormed) {p : Progress}
    (hrun : d.run packs d.start = .ok p) : Edit.InOrder p.buffer.edits :=
  inOrder_of_editsInside (h.run_editsInside hrun)
    ((Node.LaidOut.of_nested h.nested).pairwise_outermost Node.isLowerable)

/-- The edits of a run over a well-formed document are applied as they were recorded, and what
comes out is the source with the edits spliced in. -/
theorem WellFormed.exists_result? (h : d.WellFormed) {p : Progress}
    (hrun : d.run packs d.start = .ok p) :
    p.buffer.sorted = p.buffer.edits ∧
      ∃ text, p.buffer.result? = some text ∧
        text.toByteArray = splice d.text p.buffer.edits := by
  have hfits : ∀ e ∈ p.buffer.edits, e.Fits d.text := fun e he => by
    obtain ⟨n, _, hne⟩ := exists_editsInside (h.run_editsInside hrun) he
    exact hne.fits
  have hsorted : p.buffer.sorted = p.buffer.edits :=
    Buffer.sorted_eq_edits (fun e he => (hfits e he).start_le_stop) (h.run_inOrder hrun)
  refine ⟨hsorted, ?_⟩
  rw [Buffer.result?, hsorted, (run_eq_ok hrun).1]
  exact Buffer.exists_applyAll? hfits (h.run_inOrder hrun)

/-- A pass over a well-formed document is an exact splice. Its edits are those that were
recorded, one for each outermost lowerable node, inside it and in the same order, and all
that they do not replace stays as it was. -/
theorem pass_is_splice (h : d.WellFormed) {report : PassReport} (hpass : d.pass = .ok report) :
    (∃ packs p, d.packs = .ok packs ∧ d.run packs d.start = .ok p ∧
        report.edits = p.buffer.edits ∧
        List.Forall₂ (fun n e => d.Lowers packs n e ∧ n.start ≤ e.start ∧ e.stop ≤ n.stop)
          (Node.outermost Node.isLowerable d.root.children) report.edits) ∧
      (∀ e ∈ report.edits, e.start < e.stop) ∧
      report.edits.IsChain (fun a b => a.stop ≤ b.start) ∧
      report.text.toByteArray = splice d.text report.edits ∧
      (report.edits = [] → report.text = d.text) := by
  obtain ⟨packs, p, hpacks, hrun, hresult, hedits, _⟩ := pass_eq_ok_iff.1 hpass
  obtain ⟨hsorted, text, htext, hsplice⟩ := h.exists_result? hrun
  obtain ⟨_, _, hlowers⟩ := run_eq_ok hrun
  have hinside := h.run_editsInside hrun
  have hrecorded : report.edits = p.buffer.edits := hedits.trans hsorted
  have hbytes : report.text.toByteArray = splice d.text p.buffer.edits := by
    rw [htext] at hresult
    rw [← Option.some.inj hresult, hsplice]
  rw [hrecorded]
  refine ⟨⟨packs, p, hpacks, hrun, rfl, ?_⟩, fun e he => ?_, (h.run_inOrder hrun).isChain,
    hbytes, fun hnil => ?_⟩
  · exact hlowers.mp (fun n e hl hi => ⟨hl, hi.start_le_start, hi.stop_le_stop⟩) hinside
  · obtain ⟨n, _, hne⟩ := exists_editsInside hinside he
    exact hne.start_lt_stop
  · rw [hnil, splice_nil] at hbytes
    exact String.toByteArray_inj.1 hbytes

theorem pass_is_splice_foldInFold :
    foldInFold.WellFormed ∧ foldInFold.pass = .ok foldInFoldReport ∧
      foldInFoldReport.text.toByteArray = splice foldInFold.text foldInFoldReport.edits ∧
      ∃ packs, List.Forall₂
        (fun n e => foldInFold.Lowers packs n e ∧ n.start ≤ e.start ∧ e.stop ≤ n.stop)
        (Node.outermost Node.isLowerable foldInFold.root.children) foldInFoldReport.edits := by
  have hwell : foldInFold.WellFormed := by decide
  obtain ⟨⟨packs, _, _, _, _, hinside⟩, _, _, hsplice, _⟩ := pass_is_splice hwell pass_foldInFold
  exact ⟨hwell, pass_foldInFold, hsplice, packs, hinside⟩

/-! ### Faults -/

/-- What holds at every moment of a walk over a well-formed document: the stack holds nodes of
the tree in order and apart, and all edits lie in front of them. -/
structure OnTrack (d : Document) (stack : List Node) (p : Progress) : Prop where
  mem : ∀ n ∈ stack, n ∈ preorders d.root.children
  laidOut : Node.LaidOut stack
  source_eq : p.buffer.source = d.text
  in_front : ∀ e ∈ p.buffer.edits, ∀ n ∈ stack, e.stop ≤ n.start

namespace OnTrack

variable {n : Node} {stack : List Node} {p : Progress}

theorem start (h : d.WellFormed) : d.OnTrack d.root.children d.start where
  mem _ hn := Node.mem_preorders_of_mem hn
  laidOut := Node.LaidOut.of_nested h.nested
  source_eq := rfl
  in_front _ he := by cases he

/-- An edit inside the next node can be recorded. -/
theorem record_eq (hp : d.OnTrack (n :: stack) p) {e : Edit} (he : d.EditsInside n e) :
    p.buffer.record e = .ok { p.buffer with edits := p.buffer.edits ++ [e] } := by
  apply Buffer.record_eq_of_behind
  · rw [hp.source_eq]
    exact he.fits
  · intro f hf
    exact (hp.in_front f hf n List.mem_cons_self).trans he.start_le_start

theorem skip (hp : d.OnTrack (n :: stack) p) {e : Edit} (he : d.EditsInside n e) :
    d.OnTrack stack
      ⟨{ p.buffer with edits := p.buffer.edits ++ [e] }, p.visited + 1⟩ where
  mem m hm := hp.mem m (List.mem_cons_of_mem n hm)
  laidOut := hp.laidOut.tail
  source_eq := hp.source_eq
  in_front f hf m hm := by
    rcases List.mem_append.1 hf with hf | hf
    · exact hp.in_front f hf m (List.mem_cons_of_mem n hm)
    · rw [List.mem_singleton.1 hf]
      exact he.stop_le_stop.trans
        (hp.laidOut.stop_le_start n.mem_preorder_self (Node.mem_preorders_of_mem hm))

theorem enter (hp : d.OnTrack (n :: stack) p) :
    d.OnTrack (n.children ++ stack) { p with visited := p.visited + 1 } where
  mem m hm := by
    rcases List.mem_append.1 hm with hm | hm
    · exact Node.mem_preorders_of_child (hp.mem n List.mem_cons_self) hm
    · exact hp.mem m (List.mem_cons_of_mem n hm)
  laidOut := hp.laidOut.open_head
  source_eq := hp.source_eq
  in_front e he m hm := by
    rcases List.mem_append.1 hm with hm | hm
    · exact (hp.in_front e he n List.mem_cons_self).trans (hp.laidOut.head.covers m hm).1
    · exact hp.in_front e he m (List.mem_cons_of_mem n hm)

theorem yields_visit (h : d.WellFormed) (packs : List String)
    (hp : d.OnTrack (n :: stack) p) :
    d.Yields (d.visit packs n p) fun _ => True := by
  have hn : n ∈ preorders d.root.children := hp.mem n List.mem_cons_self
  refine (h.yields_construct hn packs).bind fun c hc => ?_
  refine (yields_lower hc).bind fun o ho => ?_
  cases o with
  | kept => trivial
  | edited e =>
    simp only [hp.record_eq ho]
    trivial
  | rejected op span =>
    obtain ⟨stop, hspan⟩ := ho
    exact hspan.yields_read.bind fun whole _ => ⟨rfl, span.first, rfl, hspan.first_le⟩

/-- A walk that is on track fails only where it refuses a construct. -/
theorem yields_walk (h : d.WellFormed) (packs : List String) (hp : d.OnTrack stack p) :
    d.Yields (d.walk packs stack p) fun _ => True := by
  induction stack, p using walk.induct d packs with
  | case1 p =>
    rw [walk_nil]
    trivial
  | case2 p n stack f hvisit =>
    have hyields := hp.yields_visit h packs
    rw [hvisit] at hyields
    rw [walk_cons_of_error hvisit]
    exact hyields
  | case3 p n stack q hvisit ih =>
    rw [walk_cons_of_enter hvisit]
    rcases visit_eq_ok hvisit with ⟨_, hskip, _⟩ | ⟨_, _, rfl⟩
    · cases hskip
    · exact ih hp.enter
  | case4 p n stack q hvisit ih =>
    rw [walk_cons_of_skip hvisit]
    rcases visit_eq_ok hvisit with ⟨_, _, e, he, rfl⟩ | ⟨_, henter, _⟩
    · exact ih (hp.skip (h.editsInside (hp.mem n List.mem_cons_self) he))
    · cases henter

end OnTrack

theorem Measured.yields_packs (h : d.Measured) : d.Yields d.packs fun _ => True := by
  have hcut : ∀ t ∈ packTokens (d.root.tokens.filter (!·.isComment)),
      d.Yields (d.cut t.start t.stop) fun _ => True := fun t ht => by
    have htoken := (List.mem_filter.1 (packTokens_subset _ ht)).1
    exact (h.yields_cut_node (Node.mem_tokens_iff.1 htoken).1).mono fun _ _ => trivial
  exact (Yields.mapM hcut).bind fun names _ => trivial

/-- A run over a well-formed document leaves edits that can be applied, or refuses a
construct. -/
theorem WellFormed.yields_run (h : d.WellFormed) (packs : List String) :
    d.Yields (d.run packs d.start) fun p => ∃ text, p.buffer.result? = some text := by
  have hwalk := (OnTrack.start h).yields_walk h packs
  rw [← run_eq_walk] at hwalk
  cases hrun : d.run packs d.start with
  | error f =>
    rw [hrun] at hwalk
    exact hwalk
  | ok p =>
    obtain ⟨_, text, htext, _⟩ := h.exists_result? hrun
    exact ⟨text, htext⟩

theorem WellFormed.yields_pass (h : d.WellFormed) : d.Yields d.pass fun _ => True := by
  refine h.yields_packs.bind fun packs _ => ?_
  refine (h.yields_run packs).bind fun p hp => ?_
  obtain ⟨text, htext⟩ := hp
  simp only [htext]
  trivial

/-- A pass over a well-formed document gives a report, or it refuses a construct at a byte of
the text. It never cuts the text amiss, and never makes an edit that does not fit. -/
theorem pass_reports_or_refuses (h : d.WellFormed) :
    (∃ report, d.pass = .ok report) ∨ ∃ f, d.pass = .error f ∧ f.isRefusal = true ∧
      ∃ o, f.offset? = some o ∧ o ≤ d.text.utf8ByteSize := by
  have hyields := h.yields_pass
  cases hpass : d.pass with
  | ok report => exact Or.inl ⟨report, rfl⟩
  | error f =>
    rw [hpass] at hyields
    exact Or.inr ⟨f, rfl, hyields.isRefusal, hyields.offset_le⟩

def memberFold : Document where
  text := "(a+...);(é->*...)"
  root := ⟨.other "translation_unit", 0, 18, true, false,
    [⟨.foldExpression, 0, 7, true, false,
        [.token .openParen 0 1, .token .identifier 1 2, .token (.other "+") 2 3,
          .token .ellipsis 3 6, .token .closeParen 6 7]⟩,
      .token (.other ";") 7 8,
      ⟨.foldExpression, 8, 18, true, false,
        [.token .openParen 8 9, .token .identifier 9 11, .token (.other "->*") 11 14,
          .token .ellipsis 14 17, .token .closeParen 17 18]⟩]⟩

theorem pass_reports_or_refuses_memberFold :
    memberFold.WellFormed ∧ ∃ f, memberFold.pass = .error f ∧ f.isRefusal = true ∧
      ∃ o, f.offset? = some o ∧ o ≤ memberFold.text.utf8ByteSize := by
  have hwell : memberFold.WellFormed := by decide
  refine ⟨hwell, (pass_reports_or_refuses hwell).resolve_left ?_⟩
  rintro ⟨report, hpass⟩
  -- The second fold reaches members through pointers, so the walk ends in a fault.
  obtain ⟨packs, p, hpacks, hrun, _⟩ := pass_eq_ok_iff.1 hpass
  have hpacks' : memberFold.packs = .ok [] := by rfl
  obtain rfl : packs = [] := Except.ok.inj (hpacks.symm.trans hpacks')
  have hfault : memberFold.run [] memberFold.start =
      .error (.unsupported .arrowMember 8 "(é->*...)") := by
    rw [run_eq_walk]
    refine Eq.trans (walk_cons_of_skip (by rfl) _) ?_
    refine Eq.trans (walk_cons_of_enter (by rfl) _) ?_
    exact walk_cons_of_error (by rfl) _
  rw [hfault] at hrun
  cases hrun

end Document

end Downlevel
