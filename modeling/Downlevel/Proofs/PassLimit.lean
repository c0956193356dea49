import Downlevel.Proofs.Decided
import Downlevel.Proofs.Settle
import Mathlib.Data.Nat.Find

/-!
# The limit on passes

The passes over a text make a sequence that no limit enters: each is made over
what the one before it left, until one of them fails or edits nothing. A limit
only says how far into the sequence settling looks. So settling gives what the
first such pass gives if the limit reaches it, and no limit beyond it changes
the answer.
-/

namespace Downlevel

variable {parse : String → Node} {allowErrors : Bool} {source : String}

/-- The text after `i` passes. There is none if one of them fails. -/
def textAfter (parse : String → Node) (allowErrors : Bool) (source : String) :
    Nat → Except Fault String
  | 0 => .ok source
  | i + 1 => do
    let text ← textAfter parse allowErrors source i
    let report ← checkedPass parse allowErrors text
    return report.text

def passAfter (parse : String → Node) (allowErrors : Bool) (source : String) (i : Nat) :
    Except Fault PassReport :=
  textAfter parse allowErrors source i >>= checkedPass parse allowErrors

def EndsAfter (parse : String → Node) (allowErrors : Bool) (source : String) (i : Nat) : Prop :=
  ∀ report, passAfter parse allowErrors source i = .ok report → report.edits = []

def editCount (parse : String → Node) (allowErrors : Bool) (source : String) (i : Nat) : Nat :=
  match passAfter parse allowErrors source i with
  | .ok report => report.edits.length
  | .error _ => 0

theorem passAfter_of_text {i : Nat} {text : String}
    (h : textAfter parse allowErrors source i = .ok text) :
    passAfter parse allowErrors source i = checkedPass parse allowErrors text := by
  rw [passAfter, h]
  rfl

theorem exists_report_of_not_endsAfter {i : Nat} (h : ¬ EndsAfter parse allowErrors source i) :
    ∃ report, passAfter parse allowErrors source i = .ok report ∧ report.edits ≠ [] := by
  rw [EndsAfter] at h
  push Not at h
  exact h

theorem editCount_pos {i : Nat} (h : ¬ EndsAfter parse allowErrors source i) :
    0 < editCount parse allowErrors source i := by
  obtain ⟨report, hpass, hedits⟩ := exists_report_of_not_endsAfter h
  rw [editCount, hpass]
  exact List.length_pos_iff.2 hedits

/-- Where a pass is made, all before it have left a text. -/
theorem exists_text_of_pass {i : Nat} {report : PassReport}
    (h : passAfter parse allowErrors source i = .ok report) :
    ∃ text, textAfter parse allowErrors source i = .ok text ∧
      checkedPass parse allowErrors text = .ok report := by
  exact bind_eq_ok h

theorem textAfter_succ {i : Nat} {report : PassReport}
    (h : passAfter parse allowErrors source i = .ok report) :
    textAfter parse allowErrors source (i + 1) = .ok report.text := by
  obtain ⟨text, htext, hpass⟩ := exists_text_of_pass h
  rw [textAfter, htext]
  change (checkedPass parse allowErrors text >>= fun report => Except.ok report.text) = _
  rw [hpass]
  rfl

theorem exists_textAfter {k : Nat} (h : ∀ i < k, ¬ EndsAfter parse allowErrors source i) :
    ∃ text, textAfter parse allowErrors source k = .ok text := by
  cases k with
  | zero => exact ⟨source, rfl⟩
  | succ k =>
    obtain ⟨report, hpass, _⟩ := exists_report_of_not_endsAfter (h k (Nat.lt_succ_self k))
    exact ⟨report.text, textAfter_succ hpass⟩

theorem decided_textAfter (i : Nat) : Decided (textAfter parse allowErrors source i) := by
  induction i with
  | zero => exact Decided.ok source
  | succ i ih =>
    refine ih.bind fun text => ?_
    exact (decided_checkedPass parse allowErrors text).bind fun report => Decided.ok report.text

/-- What settling gives if the pass after `k` others is the one that ends it. -/
def settledAfter (parse : String → Node) (allowErrors : Bool) (source : String) (k : Nat) :
    Except Fault Settled := do
  let text ← textAfter parse allowErrors source k
  let _ ← checkedPass parse allowErrors text
  return ⟨text, k + 1, (List.range k).map (editCount parse allowErrors source), text != source⟩

theorem settledAfter_of_text {k : Nat} {text : String}
    (h : textAfter parse allowErrors source k = .ok text) :
    settledAfter parse allowErrors source k = (checkedPass parse allowErrors text).map fun _ =>
      ⟨text, k + 1, (List.range k).map (editCount parse allowErrors source), text != source⟩ := by
  rw [settledAfter, h]
  change checkedPass parse allowErrors text >>= _ = _
  cases checkedPass parse allowErrors text <;> rfl

theorem decided_settledAfter (k : Nat) : Decided (settledAfter parse allowErrors source k) := by
  refine (decided_textAfter k).bind fun text => ?_
  exact (decided_checkedPass parse allowErrors text).bind fun _ => Decided.ok _

namespace Limits

variable {l : Limits}

/-- Passes that all edit something leave settling where it would be had it started behind
them. -/
theorem settleFrom_add {k : Nat} {text : String}
    (hedit : ∀ i < k, ¬ EndsAfter parse l.allowErrors source i)
    (htext : textAfter parse l.allowErrors source k = .ok text) (fuel : Nat) :
    l.settleFrom parse source (k + fuel) [] source =
      l.settleFrom parse source fuel
        ((List.range k).map (editCount parse l.allowErrors source)) text := by
  induction k generalizing text fuel with
  | zero =>
    cases htext
    rw [Nat.zero_add]
    rfl
  | succ k ih =>
    obtain ⟨report, hpass, hedits⟩ := exists_report_of_not_endsAfter (hedit k (Nat.lt_succ_self k))
    obtain ⟨before, hbefore, hchecked⟩ := exists_text_of_pass hpass
    have hreport : report.text = text := Except.ok.inj ((textAfter_succ hpass).symm.trans htext)
    have hcount : editCount parse l.allowErrors source k = report.edits.length := by
      rw [editCount, hpass]
    calc l.settleFrom parse source (k + 1 + fuel) [] source
        = l.settleFrom parse source (k + (fuel + 1)) [] source := by
          rw [Nat.add_right_comm, Nat.add_assoc]
      _ = l.settleFrom parse source (fuel + 1)
            ((List.range k).map (editCount parse l.allowErrors source)) before :=
          ih (fun i hi => hedit i (Nat.lt_succ_of_lt hi)) hbefore (fuel + 1)
      _ = l.settleFrom parse source fuel
            ((List.range k).map (editCount parse l.allowErrors source) ++ [report.edits.length])
            report.text := settleFrom_of_edits hchecked hedits fuel
      _ = _ := by rw [hreport, ← hcount, List.range_succ, List.map_append]; rfl

/-- The first pass that fails or edits nothing decides, if the limit reaches it. -/
theorem settle_eq_settledAfter {k : Nat} (hk : k < l.passes)
    (hedit : ∀ i < k, ¬ EndsAfter parse l.allowErrors source i)
    (hends : EndsAfter parse l.allowErrors source k) :
    l.settle parse source = settledAfter parse l.allowErrors source k := by
  obtain ⟨text, htext⟩ := exists_textAfter hedit
  obtain ⟨fuel, hfuel⟩ := Nat.exists_eq_add_of_lt hk
  have hpass := passAfter_of_text htext
  rw [settle, hfuel, Nat.add_assoc, settleFrom_add hedit htext, settledAfter_of_text htext]
  cases hchecked : checkedPass parse l.allowErrors text with
  | error f =>
    rw [settleFrom, hchecked]
    rfl
  | ok report =>
    have hnil : report.edits = [] := hends report (hpass.trans hchecked)
    rw [settleFrom_of_isSettled ⟨report, hchecked, hnil⟩, List.length_map, List.length_range]
    rfl

theorem settle_eq_unsettled (h : ∀ k < l.passes, ¬ EndsAfter parse l.allowErrors source k) :
    l.settle parse source = .error (.unsettled l.maxPasses) := by
  obtain ⟨text, htext⟩ := exists_textAfter h
  exact settleFrom_add h htext 0

/-- The passes that a limit allows hold a first one that fails or edits nothing, or none. -/
theorem exists_first_end_or (parse : String → Node) (allowErrors : Bool) (source : String)
    (N : Nat) :
    (∃ k < N, EndsAfter parse allowErrors source k ∧
        ∀ i < k, ¬ EndsAfter parse allowErrors source i) ∨
      ∀ k < N, ¬ EndsAfter parse allowErrors source k := by
  classical
  by_cases h : ∃ k, k < N ∧ EndsAfter parse allowErrors source k
  · obtain ⟨hlt, hends⟩ := Nat.find_spec h
    refine Or.inl ⟨Nat.find h, hlt, hends, fun i hi hi' => ?_⟩
    exact Nat.find_min h hi ⟨hi.trans hlt, hi'⟩
  · push Not at h
    exact Or.inr h

/-- Settling gives up if and only if every pass that the limit allows edits something. -/
theorem settle_eq_unsettled_iff {passes : Nat} :
    l.settle parse source = .error (.unsettled passes) ↔
      passes = l.maxPasses ∧ ∀ k < l.passes, ¬ EndsAfter parse l.allowErrors source k := by
  constructor
  · intro h
    rcases exists_first_end_or parse l.allowErrors source l.passes with
      ⟨k, hk, hends, hedit⟩ | hnone
    · rw [settle_eq_settledAfter hk hedit hends] at h
      exact absurd h (decided_settledAfter k passes)
    · rw [settle_eq_unsettled hnone] at h
      cases h
      exact ⟨rfl, hnone⟩
  · rintro ⟨rfl, hnone⟩
    exact settle_eq_unsettled hnone

/-- What is known where settling ends well: the pass that has shown it. -/
theorem exists_end_of_settle {s : Settled} (h : l.settle parse source = .ok s) :
    ∃ k < l.passes, (∀ i < k, ¬ EndsAfter parse l.allowErrors source i) ∧
      (∃ report, passAfter parse l.allowErrors source k = .ok report ∧ report.edits = []) ∧
      s.passes = k + 1 ∧
      s.edits = (List.range k).map (editCount parse l.allowErrors source) := by
  rcases exists_first_end_or parse l.allowErrors source l.passes with
    ⟨k, hk, hends, hedit⟩ | hnone
  · obtain ⟨text, htext⟩ := exists_textAfter hedit
    rw [settle_eq_settledAfter hk hedit hends, settledAfter_of_text htext] at h
    obtain ⟨report, hchecked, rfl⟩ := map_eq_ok h
    have hpass := (passAfter_of_text htext).trans hchecked
    exact ⟨k, hk, hedit, ⟨report, hpass, hends report hpass⟩, rfl, rfl⟩
  · rw [settle_eq_unsettled hnone] at h
    cases h

theorem passes_mono {l l' : Limits} (h : l.maxPasses ≤ l'.maxPasses) : l.passes ≤ l'.passes := by
  rw [passes, passes]
  omega

/-- A higher limit is looked at only where the lower one gave up. -/
theorem settle_of_le {l l' : Limits} (hallow : l'.allowErrors = l.allowErrors)
    (hle : l.maxPasses ≤ l'.maxPasses) :
    l.settle parse source = .error (.unsettled l.maxPasses) ∨
      l'.settle parse source = l.settle parse source := by
  rcases exists_first_end_or parse l.allowErrors source l.passes with
    ⟨k, hk, hends, hedit⟩ | hnone
  · refine Or.inr ?_
    rw [settle_eq_settledAfter hk hedit hends, ← hallow]
    rw [← hallow] at hedit hends
    exact settle_eq_settledAfter (hk.trans_le (passes_mono hle)) hedit hends
  · exact Or.inl (settle_eq_unsettled hnone)

/-- What the limit means. Of the passes that it allows, one more than may edit as far as they
can be counted, the first that fails or edits nothing decides: its fault is the answer, or
the text before it is, with the numbers of edits of the passes that led there. Settling gives
up if and only if there is none. Raising the limit changes nothing but that. -/
theorem settle_by_first_end (l : Limits) (parse : String → Node) (source : String) :
    (∀ k < min (l.maxPasses + 1) (UInt64.size - 1),
        EndsAfter parse l.allowErrors source k →
        (∀ i < k, ¬ EndsAfter parse l.allowErrors source i) →
        ∃ text, textAfter parse l.allowErrors source k = .ok text ∧
          (∀ f, checkedPass parse l.allowErrors text = .error f →
            l.settle parse source = .error f) ∧
          (∀ report, checkedPass parse l.allowErrors text = .ok report →
            l.settle parse source = .ok ⟨text, k + 1,
              (List.range k).map (editCount parse l.allowErrors source), text != source⟩) ∧
          ∀ i < k, 0 < editCount parse l.allowErrors source i) ∧
      (∀ passes, l.settle parse source = .error (.unsettled passes) ↔
        passes = l.maxPasses ∧ ∀ k < min (l.maxPasses + 1) (UInt64.size - 1),
          ¬ EndsAfter parse l.allowErrors source k) ∧
      ∀ l' : Limits, l'.allowErrors = l.allowErrors → l.maxPasses ≤ l'.maxPasses →
        l.settle parse source = .error (.unsettled l.maxPasses) ∨
          l'.settle parse source = l.settle parse source := by
  refine ⟨fun k hk hends hedit => ?_, fun passes => settle_eq_unsettled_iff,
    fun l' => settle_of_le⟩
  obtain ⟨text, htext⟩ := exists_textAfter hedit
  have hsettle := settle_eq_settledAfter hk hedit hends
  rw [settledAfter_of_text htext] at hsettle
  refine ⟨text, htext, fun f hf => ?_, fun report hreport => ?_,
    fun i hi => editCount_pos (hedit i hi)⟩
  · rw [hsettle, hf]
    rfl
  · rw [hsettle, hreport]
    rfl

theorem not_endsAfter_parseFold : ¬ EndsAfter parseFold false "(é*...);" 0 := by
  intro hends
  have hnil := hends _ checkedPass_parseFold
  cases hnil

theorem settle_by_first_end_parseFold :
    EndsAfter parseFold false "(é*...);" 1 ∧ ¬ EndsAfter parseFold false "(é*...);" 0 ∧
      settle parseFold ⟨1, false⟩ "(é*...);" =
        .ok ⟨"fold_expr_mul_right(é...);", 2, [1], true⟩ ∧
      settle parseFold ⟨0, false⟩ "(é*...);" = .error (.unsettled 0) := by
  have hpass : passAfter parseFold false "(é*...);" 0 = _ := checkedPass_parseFold
  have htext : textAfter parseFold false "(é*...);" 1 = .ok "fold_expr_mul_right(é...);" :=
    textAfter_succ hpass
  have hcount : editCount parseFold false "(é*...);" 0 = 1 := by
    rw [editCount, hpass]
    rfl
  obtain ⟨report, hreport, hnil⟩ := isSettled_parseFold
  have hends : EndsAfter parseFold false "(é*...);" 1 := by
    intro report' hreport'
    rw [passAfter_of_text htext, hreport] at hreport'
    rw [← Except.ok.inj hreport', hnil]
  have hedit : ∀ i < 1, ¬ EndsAfter parseFold false "(é*...);" i := by
    intro i hi
    obtain rfl : i = 0 := by omega
    exact not_endsAfter_parseFold
  refine ⟨hends, not_endsAfter_parseFold, ?_, ?_⟩
  · obtain ⟨text, htext', _, hok, _⟩ :=
      (settle_by_first_end ⟨1, false⟩ parseFold "(é*...);").1 1 (by decide) hends hedit
    obtain rfl : "fold_expr_mul_right(é...);" = text :=
      Except.ok.inj (htext.symm.trans htext')
    rw [hok report hreport, List.range_one, List.map_singleton, hcount]
    decide
  · exact ((settle_by_first_end ⟨0, false⟩ parseFold "(é*...);").2.1 0).2 ⟨rfl, hedit⟩

end Limits

end Downlevel
