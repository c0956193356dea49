import Downlevel.Settle
import Downlevel.Proofs.Pass

/-!
# Settled texts

Passes are made one after the other, each over what the last one left, until one
edits nothing. Nothing is left to lower in a text that is reached so, and settling
it once more takes one pass and gives it back. Since a pass depends on the text
alone, later passes cannot lead back to the text that was given.
-/

namespace Downlevel

open Node (preorders)

variable {parse : String → Node}

theorem checkedPass_eq_ok {allowErrors : Bool} {text : String} {report : PassReport}
    (h : checkedPass parse allowErrors text = .ok report) :
    (Document.mk text (parse text)).pass = .ok report ∧
      (allowErrors = false → (parse text).firstError? = none) := by
  rw [checkedPass] at h
  split at h
  case isTrue hallow => exact ⟨h, fun hf => by simp [hallow] at hf⟩
  case isFalse =>
    split at h
    · cases h
    · exact ⟨h, fun _ => ‹_›⟩

/-- Passes that edit something lead from `source` to `text`. Their numbers of edits are
`done`. -/
inductive Leads (parse : String → Node) (allowErrors : Bool) (source : String) :
    List Nat → String → Prop
  | start : Leads parse allowErrors source [] source
  | pass {done : List Nat} {text : String} {report : PassReport}
      (before : Leads parse allowErrors source done text)
      (ok : checkedPass parse allowErrors text = .ok report) (edits : report.edits ≠ []) :
      Leads parse allowErrors source (done ++ [report.edits.length]) report.text

/-- A checked pass over the text ends well and edits nothing. -/
def IsSettled (parse : String → Node) (allowErrors : Bool) (text : String) : Prop :=
  ∃ report, checkedPass parse allowErrors text = .ok report ∧ report.edits = []

namespace Leads

variable {allowErrors : Bool} {source text : String} {done : List Nat}

theorem edits_pos (h : Leads parse allowErrors source done text) : ∀ k ∈ done, 0 < k := by
  induction h with
  | start => exact nofun
  | @pass done text report _ _ hedits ih =>
    intro k hk
    rcases List.mem_append.1 hk with hk | hk
    · exact ih k hk
    · rw [List.mem_singleton.1 hk]
      exact List.length_pos_iff.2 hedits

theorem eq_source (h : Leads parse allowErrors source [] text) : text = source := by
  generalize hdone : ([] : List Nat) = done at h
  cases h with
  | start => rfl
  | pass => simp at hdone

/-- If any pass edits something, then the first one does, which is over `source`. -/
theorem not_isSettled_source (h : Leads parse allowErrors source done text) (hdone : done ≠ []) :
    ¬ IsSettled parse allowErrors source := by
  induction h with
  | start => exact absurd rfl hdone
  | @pass done text report before hok hedits ih =>
    rcases eq_or_ne done [] with rfl | hne
    · rw [before.eq_source] at hok
      rintro ⟨report', hok', hnil⟩
      obtain rfl : report = report' := Except.ok.inj (hok.symm.trans hok')
      exact hedits hnil
    · exact ih hne

end Leads

theorem Settled.totalEdits_pos_iff {s : Settled} (h : ∀ k ∈ s.edits, 0 < k) :
    0 < s.totalEdits ↔ s.edits ≠ [] := by
  rw [totalEdits]
  cases hedits : s.edits with
  | nil => simp
  | cons k ks =>
    have hk : 0 < k := h k (by simp [hedits])
    simp only [List.foldr_cons, ne_eq, reduceCtorEq, not_false_eq_true, iff_true]
    omega

namespace Limits

variable {l : Limits} {source text : String} {done : List Nat} {report : PassReport}

theorem settleFrom_of_edits (hok : checkedPass parse l.allowErrors text = .ok report)
    (hedits : report.edits ≠ []) (fuel : Nat) :
    l.settleFrom parse source (fuel + 1) done text =
      l.settleFrom parse source fuel (done ++ [report.edits.length]) report.text := by
  rw [settleFrom, hok]
  exact if_neg (by simpa using hedits)

theorem settleFrom_of_isSettled (h : IsSettled parse l.allowErrors text) (fuel : Nat) :
    l.settleFrom parse source (fuel + 1) done text =
      .ok ⟨text, done.length + 1, done, text != source⟩ := by
  obtain ⟨report, hok, hnil⟩ := h
  rw [settleFrom, hok]
  exact if_pos (by simpa using hnil)

/-- Settling from a text that passes lead to goes on to one that a pass leaves as it is. -/
theorem settleFrom_eq_ok {fuel : Nat} {s : Settled}
    (hleads : Leads parse l.allowErrors source done text)
    (h : l.settleFrom parse source fuel done text = .ok s) :
    Leads parse l.allowErrors source s.edits s.text ∧ IsSettled parse l.allowErrors s.text ∧
      s.changed = (s.text != source) := by
  induction fuel generalizing done text with
  | zero => cases h
  | succ fuel ih =>
    cases hok : checkedPass parse l.allowErrors text with
    | error f =>
      rw [settleFrom, hok] at h
      cases h
    | ok report =>
      rcases eq_or_ne report.edits [] with hnil | hedits
      · have hsettled : IsSettled parse l.allowErrors text := ⟨report, hok, hnil⟩
        rw [settleFrom_of_isSettled hsettled] at h
        cases h
        exact ⟨hleads, hsettled, rfl⟩
      · rw [settleFrom_of_edits hok hedits] at h
        exact ih (hleads.pass hok hedits) h

/-- However few passes may edit, there is one to find out that nothing is left. -/
theorem passes_pos (l : Limits) : 0 < l.passes := by
  rw [passes, passCeiling]
  omega

theorem settle_of_isSettled (h : IsSettled parse l.allowErrors text) :
    l.settle parse text = .ok ⟨text, 1, [], false⟩ := by
  obtain ⟨fuel, hfuel⟩ := Nat.exists_eq_succ_of_ne_zero l.passes_pos.ne'
  rw [settle, hfuel, settleFrom_of_isSettled h]
  simp

/-- The text has changed if and only if a pass has edited it: the passes cannot undo one
another. -/
theorem changed_iff {s : Settled} (hleads : Leads parse l.allowErrors source s.edits s.text)
    (hsettled : IsSettled parse l.allowErrors s.text) (hchanged : s.changed = (s.text != source)) :
    s.changed = true ↔ 0 < s.totalEdits := by
  rw [Settled.totalEdits_pos_iff hleads.edits_pos, hchanged, bne_iff_ne]
  constructor
  · intro hne hnil
    rw [hnil] at hleads
    exact hne hleads.eq_source
  · intro hedits heq
    rw [heq] at hsettled
    exact hleads.not_isSettled_source hedits hsettled

/-- A settled text holds nothing that can be lowered, and no syntax error unless these are
allowed. It differs from the text given if and only if something was edited. Settling it
again gives it back after one pass, under any limit. -/
theorem settle_is_stable {s : Settled} (h : l.settle parse source = .ok s) :
    (∀ n ∈ preorders (parse s.text).children, n.isLowerable = false) ∧
      (l.allowErrors = false → ∀ n ∈ (parse s.text).preorder, n.isError = false) ∧
      (s.changed = true ↔ 0 < s.totalEdits) ∧
      ∀ l' : Limits, l'.allowErrors = l.allowErrors →
        l'.settle parse s.text = .ok ⟨s.text, 1, [], false⟩ := by
  obtain ⟨hleads, hsettled, hchanged⟩ := settleFrom_eq_ok .start h
  obtain ⟨report, hok, hnil⟩ := hsettled
  obtain ⟨hpass, herrors⟩ := checkedPass_eq_ok hok
  refine ⟨(Document.edits_eq_nil_iff_of_pass hpass).1 hnil,
    fun hallow => Node.firstError?_eq_none_iff.1 (herrors hallow),
    changed_iff hleads ⟨report, hok, hnil⟩ hchanged, fun l' hl' => ?_⟩
  apply settle_of_isSettled
  rw [hl']
  exact ⟨report, hok, hnil⟩

def parseFold (text : String) : Node :=
  if text = "(é*...);" then
    ⟨.other "translation_unit", 0, 9, true, false,
      [⟨.foldExpression, 0, 8, true, false,
        [.token .openParen 0 1, .token .identifier 1 3, .token (.other "*") 3 4,
          .token .ellipsis 4 7, .token .closeParen 7 8]⟩,
        .token (.other ";") 8 9]⟩
  else
    ⟨.other "translation_unit", 0, text.utf8ByteSize, true, false,
      [.token .identifier 0 text.utf8ByteSize]⟩

theorem checkedPass_parseFold :
    checkedPass parseFold false "(é*...);" = .ok ⟨"fold_expr_mul_right(é...);",
      [⟨0, 8, "fold_expr_mul_right(é...)", some "fold over `*`"⟩], 2⟩ := by
  change (Document.mk "(é*...);" (parseFold "(é*...);")).pass = _
  refine Document.pass_eq_of_walk [] (by rfl) ?_ (by decide) (by decide) (by decide +kernel)
  refine Eq.trans (Document.walk_cons_of_skip (by rfl) _) ?_
  refine Eq.trans (Document.walk_cons_of_enter (by rfl) _) ?_
  exact Document.walk_nil _

theorem isSettled_parseFold : IsSettled parseFold false "fold_expr_mul_right(é...);" := by
  refine ⟨⟨"fold_expr_mul_right(é...);", [], 1⟩, ?_, rfl⟩
  change (Document.mk "fold_expr_mul_right(é...);" (parseFold "fold_expr_mul_right(é...);")).pass
    = _
  refine Document.pass_eq_of_walk [] (by rfl) ?_ (by decide) (by decide) rfl
  refine Eq.trans (Document.walk_cons_of_enter (by rfl) _) ?_
  exact Document.walk_nil _

theorem settle_is_stable_parseFold :
    settle parseFold ⟨1, false⟩ "(é*...);" = .ok ⟨"fold_expr_mul_right(é...);", 2, [1], true⟩ ∧
      (∀ n ∈ preorders (parseFold "fold_expr_mul_right(é...);").children,
        n.isLowerable = false) ∧
      ∀ l' : Limits, l'.allowErrors = false →
        l'.settle parseFold "fold_expr_mul_right(é...);" =
          .ok ⟨"fold_expr_mul_right(é...);", 1, [], false⟩ := by
  have hsettle : settle parseFold ⟨1, false⟩ "(é*...);" =
      .ok ⟨"fold_expr_mul_right(é...);", 2, [1], true⟩ :=
    (settleFrom_of_edits checkedPass_parseFold (by decide) 1).trans
      (settleFrom_of_isSettled isSettled_parseFold 0)
  obtain ⟨hnone, _, _, hagain⟩ := settle_is_stable hsettle
  exact ⟨hsettle, hnone, hagain⟩

end Limits

end Downlevel
