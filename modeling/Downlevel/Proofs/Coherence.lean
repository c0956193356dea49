import Downlevel.Proofs.PassLimit
import Downlevel.Proofs.Rerun
import Mathlib.Algebra.BigOperators.Group.List.Basic
import Mathlib.Algebra.GroupWithZero.Nat

/-!
# Coherent reports

A report on a file is made when the file has been read and its text has settled or
failed, and made once more when the file is written back. Neither step leaves
anything behind that does not fit the status: a refused write takes back what was
counted before it. The totals count each file once, and the exit code tells
whether one of them failed, or is changed where a check was asked for.
-/

namespace Downlevel

/-! ### Entries -/

namespace FileReport

/-- All that is said of a file fits its status. The job is one that writes or one that does
not. -/
structure Coherent (apply : Bool) (r : FileReport) : Prop where
  file : r.file = r.path.display
  failed : r.status = .failed →
    (∃ message, r.error? = some message) ∧ r.text? = none ∧ r.passes = 0 ∧ r.edits = 0 ∧
      r.written = false ∧ (r.line?.isSome = true ↔ r.column?.isSome = true)
  settled : r.status ≠ .failed →
    (∃ text, r.text? = some text) ∧ 1 ≤ r.passes ∧ r.error? = none ∧ r.line? = none ∧
      r.column? = none ∧ (r.status = .changed ↔ 0 < r.edits)
  written : r.written = true ↔ apply = true ∧ r.status = .changed

/-- A failure makes a coherent entry of any that was not written. -/
theorem coherent_fail (apply : Bool) {r : FileReport} (hfile : r.file = r.path.display)
    (hwritten : r.written = false) (message : String) (place : Option Text.Place) :
    (r.fail message place).Coherent apply := by
  refine ⟨hfile, fun _ => ⟨⟨message, rfl⟩, rfl, rfl, rfl, hwritten, ?_⟩, fun h => absurd rfl h, ?_⟩
  · cases place <;> simp [fail]
  · simp [fail, hwritten]

theorem status_settle_ne_failed (r : FileReport) (s : Settled) : (r.settle s).status ≠ .failed := by
  rw [settle]
  cases s.changed <;> simp

/-- A settled text makes a coherent entry if it took a pass, and differs from the one given if
and only if something was edited. -/
theorem coherent_settle {s : Settled} (hpasses : 1 ≤ s.passes)
    (hedits : s.changed = true ↔ 0 < s.totalEdits) (path : Path) :
    ((new path).settle s).Coherent false := by
  refine ⟨rfl, fun h => absurd h (status_settle_ne_failed _ s), fun _ => ?_, by simp [settle, new]⟩
  refine ⟨⟨s.text, rfl⟩, hpasses, rfl, rfl, rfl, ?_⟩
  rw [status_settle_eq_changed]
  exact hedits

theorem Coherent.written_eq_false {r : FileReport} (h : r.Coherent false) : r.written = false := by
  rw [← Bool.not_eq_true, h.written]
  simp

end FileReport

namespace FileSystem

open FileReport (Coherent)

variable {fs fs' : FileSystem} {parse : String → Node} {job : Job}

/-- Reading a file and settling its text makes a coherent entry, before anything is written. -/
theorem coherent_process {limits : Limits} {p : Path} {r : FileReport}
    (h : fs.process parse limits p = some r) : r.path = p ∧ r.Coherent false := by
  rcases process_eq_some h with ⟨f, _, rfl⟩ | ⟨text, _, ⟨s, hsettle, rfl⟩ | ⟨f, _, _, rfl⟩⟩
  · exact ⟨rfl, FileReport.coherent_fail false rfl rfl _ _⟩
  · refine ⟨rfl, FileReport.coherent_settle ?_ ?_ p⟩
    · obtain ⟨k, _, _, _, hpasses, _⟩ := Limits.exists_end_of_settle hsettle
      omega
    · obtain ⟨hleads, hsettled, hchanged⟩ := Limits.settleFrom_eq_ok .start hsettle
      exact Limits.changed_iff hleads hsettled hchanged
  · exact ⟨rfl, FileReport.coherent_fail false rfl rfl _ _⟩

/-- Writing a file back keeps its entry coherent: what was written is changed, and what was
refused has failed. -/
theorem coherent_writeBack {r : FileReport} (roots : List Path) (h : r.Coherent false) :
    (fs.writeBack roots r).2.path = r.path ∧ (fs.writeBack roots r).2.Coherent true := by
  by_cases hstatus : r.status = .changed
  · obtain ⟨⟨text, htext⟩, hsettled⟩ := h.settled (by simp [hstatus])
    cases hwithin : fs.withinAny r.path roots with
    | ok l =>
      rw [writeBack_of_within hstatus htext hwithin]
      refine ⟨rfl, h.file, fun hfailed => ?_, fun _ => ⟨⟨text, htext⟩, hsettled⟩, ?_⟩
      · cases hstatus.symm.trans hfailed
      · exact iff_of_true rfl ⟨rfl, hstatus⟩
    | error f =>
      rw [writeBack_of_refused hstatus htext hwithin]
      exact ⟨rfl, FileReport.coherent_fail true h.file h.written_eq_false _ _⟩
  · rw [writeBack_of_ne hstatus]
    refine ⟨rfl, h.file, h.failed, h.settled, ?_⟩
    simp [h.written_eq_false, hstatus]

theorem coherent_concluded {r : FileReport} (h : r.Coherent false) :
    (fs.concluded job r).path = r.path ∧ (fs.concluded job r).Coherent job.apply := by
  unfold concluded
  cases job.apply with
  | false => exact ⟨rfl, h⟩
  | true => exact coherent_writeBack job.roots h

/-- A job reports on the listed paths, in their order, and every entry is coherent. -/
theorem coherent_perform {paths : List Path} {report : Report}
    (h : fs.perform parse job paths = some (fs', report)) :
    report.files.map FileReport.path = paths ∧ ∀ r ∈ report.files, r.Coherent job.apply := by
  obtain ⟨reports, ws, hreports, _, _, hfiles⟩ := perform_eq_some h
  rw [hfiles]
  constructor
  · have hpaths : List.Forall₂ (fun p r => p = (fs.concluded job r).path) paths reports := by
      refine (mapM_eq_some_iff.1 hreports).imp fun p r hprocess => ?_
      obtain ⟨hpath, hcoherent⟩ := coherent_process hprocess
      rw [(coherent_concluded hcoherent).1, hpath]
    rw [List.map_map, eq_comm, ← List.forall₂_eq_eq_eq, List.forall₂_map_right_iff]
    exact hpaths
  · intro r hr
    obtain ⟨before, hbefore, rfl⟩ := List.mem_map.1 hr
    obtain ⟨p, _, hprocess⟩ := (mem_iff_of_mapM hreports).1 hbefore
    exact (coherent_concluded (coherent_process hprocess).2).2

end FileSystem

/-! ### Totals -/

/-- The totals are those over the given files: each counts once, by its status, and edits count
in files that have not failed. -/
structure Summary.Totals (s : Summary) (rs : List FileReport) : Prop where
  files : s.files = rs.length
  statuses : s.changed + s.unchanged + s.failed = rs.length
  changed : s.changed = rs.countP (·.status = .changed)
  unchanged : s.unchanged = rs.countP (·.status = .unchanged)
  failed : s.failed = rs.countP (·.status = .failed)
  edits : s.edits = ((rs.filter (·.status ≠ .failed)).map FileReport.edits).sum

theorem Summary.foldl_add_totals (rs : List FileReport) (s : Summary) :
    (rs.foldl Summary.add s).files = s.files ∧
      (rs.foldl Summary.add s).edits = s.edits + (rs.map FileReport.edits).sum := by
  induction rs generalizing s with
  | nil => exact ⟨rfl, rfl⟩
  | cons r rs ih =>
    have hadd : (s.add r).files = s.files ∧ (s.add r).edits = s.edits + r.edits := by
      unfold add
      cases r.status <;> exact ⟨rfl, rfl⟩
    obtain ⟨hfiles, hedits⟩ := ih (s.add r)
    rw [List.foldl_cons, hfiles, hedits, List.map_cons, List.sum_cons]
    omega

/-- Files that have failed bring no edits to the sum. -/
theorem sum_edits_filter {rs : List FileReport} (h : ∀ r ∈ rs, r.status = .failed → r.edits = 0) :
    ((rs.filter (·.status ≠ .failed)).map FileReport.edits).sum =
      (rs.map FileReport.edits).sum := by
  induction rs with
  | nil => rfl
  | cons r rs ih =>
    have ih := ih fun r' hr' => h r' (List.mem_cons_of_mem r hr')
    by_cases hfailed : r.status = .failed
    · rw [List.filter_cons_of_neg (by simp [hfailed]), ih, List.map_cons, List.sum_cons,
        h r List.mem_cons_self hfailed, Nat.zero_add]
    · rw [List.filter_cons_of_pos (by simp [hfailed]), List.map_cons, List.map_cons,
        List.sum_cons, List.sum_cons, ih]

theorem countP_statuses (rs : List FileReport) :
    rs.countP (·.status = .changed) + rs.countP (·.status = .unchanged) +
      rs.countP (·.status = .failed) = rs.length := by
  induction rs with
  | nil => rfl
  | cons r rs ih =>
    simp only [List.countP_cons, List.length_cons, decide_eq_true_eq]
    cases r.status <;> simp only [reduceCtorEq, if_true, if_false] <;> omega

theorem Report.totals_summary {apply : Bool} (r : Report)
    (h : ∀ f ∈ r.files, f.Coherent apply) : r.summary.Totals r.files := by
  obtain ⟨hfiles, hedits⟩ := Summary.foldl_add_totals r.files { files := r.files.length }
  have hchanged : r.summary.changed = _ := r.count_summary .changed
  have hunchanged : r.summary.unchanged = _ := r.count_summary .unchanged
  have hfailed : r.summary.failed = _ := r.count_summary .failed
  refine ⟨?_, ?_, hchanged, hunchanged, hfailed, ?_⟩
  · rw [summary, hfiles]
  · rw [hchanged, hunchanged, hfailed, countP_statuses]
  · have hnone : ∀ f ∈ r.files, f.status = .failed → f.edits = 0 := fun f hf hf' =>
      ((h f hf).failed hf').2.2.2.1
    rw [sum_edits_filter hnone, summary, hedits, Nat.zero_add]

/-! ### Exit codes -/

theorem exitCode_eq_zero_or_one (job : Job) (s : Summary) :
    exitCode job s = 0 ∨ exitCode job s = 1 := by
  unfold exitCode
  split_ifs
  · exact Or.inr rfl
  · exact Or.inl rfl

theorem exitCode_eq_one_iff {job : Job} {r : Report} :
    exitCode job r.summary = 1 ↔ (∃ f ∈ r.files, f.status = .failed) ∨
      (job.check = true ∧ ∃ f ∈ r.files, f.status = .changed) := by
  have hone : exitCode job r.summary = 1 ↔ ¬ exitCode job r.summary = 0 := by
    have := exitCode_eq_zero_or_one job r.summary
    omega
  rw [hone, exitCode_eq_zero_iff]
  constructor
  · intro h
    by_contra hnone
    rw [not_or] at hnone
    exact h ⟨fun f hf hfailed => hnone.1 ⟨f, hf, hfailed⟩,
      fun hcheck f hf hchanged => hnone.2 ⟨hcheck, f, hf, hchanged⟩⟩
  · rintro (⟨f, hf, hfailed⟩ | ⟨hcheck, f, hf, hchanged⟩) ⟨hnone, hkept⟩
    · exact hnone f hf hfailed
    · exact hkept hcheck f hf hchanged

/-- Reports, totals and exit codes fit together. A job has no report only where a text would have
to be cut outside its characters. Otherwise there is one entry for each listed path, in their
order; each is coherent, and the totals are those over them. A call that comes to its job ends
with one if a file failed, or if it is a check and a file is changed, and with zero otherwise. -/
theorem perform_reports_coherently (fs : FileSystem) (tools : Tools) :
    (∀ job paths,
      (fs.perform tools.parse job paths = none ↔ ∃ p ∈ paths, ∃ text, fs.read p = .ok text ∧
        job.limits.settle tools.parse text = .error .badCut) ∧
      ∀ fs' report, fs.perform tools.parse job paths = some (fs', report) →
        report.files.map FileReport.path = paths ∧
          (∀ r ∈ report.files, r.Coherent job.apply) ∧ report.summary.Totals report.files) ∧
    ∀ words a fs' report, tools.read words = .ok a → a.targets.all fs.exists? = true →
      fs.perform tools.parse (a.job (a.settings tools fs)) (a.files tools fs) =
          some (fs', report) →
        ∃ r, runCommand tools fs words = some r ∧ r.fs = fs' ∧ (r.code = 0 ∨ r.code = 1) ∧
          (r.code = 1 ↔ (∃ f ∈ report.files, f.status = .failed) ∨
            (a.has .check = true ∧ ∃ f ∈ report.files, f.status = .changed)) := by
  refine ⟨fun job paths => ⟨FileSystem.perform_eq_none_iff, fun fs' report h => ?_⟩,
    fun words a fs' report hread hexists h => ?_⟩
  · obtain ⟨hpaths, hcoherent⟩ := FileSystem.coherent_perform h
    exact ⟨hpaths, hcoherent, report.totals_summary hcoherent⟩
  · obtain ⟨output, hrun⟩ := Arguments.run_of_exists hexists h
    rw [runCommand_of_ok hread]
    refine ⟨_, hrun, rfl, ?_, ?_⟩
    · exact exitCode_eq_zero_or_one _ _
    · exact exitCode_eq_one_iff

open FileSystem (linkedFold applyHere wellFormed_parseFold)

open Limits (parseFold)

def checkFold : Arguments := { paths := [⟨false, ["a.cpp"]⟩], flags := [.check] }

def foldTools : Tools := .standard parseFold none

theorem perform_reports_coherently_linkedFold :
    (∃ fs' report,
      linkedFold.perform foldTools.parse applyHere
        [⟨false, ["a.cpp"]⟩, ⟨false, ["b"]⟩, ⟨false, ["c"]⟩] = some (fs', report) ∧
      report.files.map FileReport.path =
        [⟨false, ["a.cpp"]⟩, ⟨false, ["b"]⟩, ⟨false, ["c"]⟩] ∧
      (∀ r ∈ report.files, r.Coherent true) ∧ report.summary.Totals report.files) ∧
    ∃ r, runCommand foldTools linkedFold ["--check", "a.cpp"] = some r ∧ r.code = 1 := by
  obtain ⟨hjob, hcall⟩ := perform_reports_coherently linkedFold foldTools
  have hsome : ∀ job paths, ∃ result,
      linkedFold.perform foldTools.parse job paths = some result := by
    intro job paths
    rw [← Option.ne_none_iff_exists', Ne, (hjob job paths).1]
    rintro ⟨p, _, text, _, hbad⟩
    exact Limits.settle_ne_badCut wellFormed_parseFold hbad
  constructor
  · obtain ⟨⟨fs', report⟩, h⟩ := hsome applyHere
      [⟨false, ["a.cpp"]⟩, ⟨false, ["b"]⟩, ⟨false, ["c"]⟩]
    exact ⟨fs', report, h, (hjob _ _).2 fs' report h⟩
  · obtain ⟨⟨fs', report⟩, h⟩ := hsome (checkFold.job (checkFold.settings foldTools linkedFold))
      (checkFold.files foldTools linkedFold)
    obtain ⟨r, hrun, _, _, hcode⟩ :=
      hcall ["--check", "a.cpp"] checkFold fs' report (by decide +kernel) (by decide +kernel) h
    have hchanged : (linkedFold.perform foldTools.parse
        (checkFold.job (checkFold.settings foldTools linkedFold))
        (checkFold.files foldTools linkedFold)).any (·.2.files.any (·.status = .changed)) =
          true := by
      decide +kernel
    rw [h, Option.any_some, List.any_eq_true] at hchanged
    obtain ⟨f, hf, hstatus⟩ := hchanged
    exact ⟨r, hrun, hcode.2 (Or.inr ⟨rfl, f, hf, of_decide_eq_true hstatus⟩)⟩

end Downlevel
