import Downlevel.Proofs.Perform
import Downlevel.Proofs.Reading
import Downlevel.Proofs.RuleFiles
import Downlevel.Tools

/-!
# Runs after a run

After a run that wrote files and in which none failed, all files that it was
about hold settled texts. A later run with the same arguments is about the same
files, unless one of those written governs it. So there is nothing left to do
for it, and a check in its place passes.
-/

namespace Downlevel

namespace FileSystem

variable {fs fs' : FileSystem} {parse : String → Node} {job : Job} {paths : List Path}

/-- A file that did not fail was read, its text settled, and if that is another text then it
may be written. -/
theorem process_of_not_failed {p : Path} {r : FileReport} (happly : job.apply = true)
    (h : fs.process parse job.limits p = some r) (hstatus : (fs.concluded job r).status ≠ .failed) :
    ∃ text s, fs.read p = .ok text ∧ job.limits.settle parse text = .ok s ∧
      (s.changed = true → ∃ l, fs.withinAny p job.roots = .ok l) := by
  rw [concluded, if_pos happly] at hstatus
  rcases process_eq_some h with ⟨f, _, rfl⟩ | ⟨text, hread, ⟨s, hsettle, rfl⟩ | ⟨f, _, _, rfl⟩⟩
  · exact absurd rfl hstatus
  · refine ⟨text, s, hread, hsettle, fun hchanged => ?_⟩
    cases hwithin : fs.withinAny p job.roots with
    | ok l => exact ⟨l, rfl⟩
    | error f =>
      rw [writeBack_of_refused (FileReport.status_settle_eq_changed.2 hchanged) rfl hwithin]
        at hstatus
      exact absurd rfl hstatus
  · exact absurd rfl hstatus

/-- After a job that writes and in which no file failed, every file holds a settled text. -/
theorem exists_settled_of_perform {report : Report} (happly : job.apply = true)
    (h : fs.perform parse job paths = some (fs', report))
    (hstatus : ∀ r ∈ report.files, r.status ≠ .failed) {p : Path} (hp : p ∈ paths) :
    ∃ text, fs'.read p = .ok text ∧ IsSettled parse job.limits.allowErrors text := by
  obtain ⟨reports, ws, hreports, rfl, hws, hfiles⟩ := perform_eq_some h
  have hconsistent : Consistent ws := consistent_of_due fun w hw => ((hws w).1 hw).2
  obtain ⟨r, hr, hprocess⟩ := exists_mem_of_mapM hreports hp
  obtain ⟨text, s, hread, hsettle, hwithin⟩ := process_of_not_failed happly hprocess
    (hstatus _ (by rw [hfiles]; exact List.mem_map_of_mem hr))
  obtain ⟨l, content, hresolve, hat, hutf⟩ := read_eq_ok_iff.1 hread
  obtain ⟨_, hsettled, hchanged⟩ := Limits.settleFrom_eq_ok .start hsettle
  have hresolve' : (fs.writeAll ws).resolve p = .ok l := by
    rw [resolve_eq (hollow_writeAll ws), hresolve]
  refine ⟨s.text, ?_, hsettled⟩
  by_cases hnew : s.changed = true
  · obtain ⟨l', hl'⟩ := hwithin hnew
    obtain ⟨hpath, hroot⟩ := withinAny_eq_ok_iff.1 hl'
    obtain rfl : l = l' := Except.ok.inj (hresolve.symm.trans hpath)
    have hdue : fs.Due parse job paths l s.text :=
      ⟨⟨p, hp, hresolve⟩, ⟨content, text, s, hat, hutf, hsettle, hnew, rfl⟩, hroot⟩
    obtain ⟨hafter, _⟩ := hdue.at?_writeAll hat hconsistent ((hws _).2 ⟨happly, hdue⟩)
    exact read_eq_ok_iff.2 ⟨l, _, hresolve', hafter, fromUTF8?_toUTF8 s.text⟩
  · -- No path to this file asks for a write, since all read the same text.
    have hunwritten : ∀ w ∈ ws, w.1 ≠ l := by
      rintro w hw rfl
      exact hnew (((hws w).1 hw).2.of_settle hat hutf hsettle).1
    have htext : s.text = text := by
      rw [Bool.not_eq_true, hchanged] at hnew
      simpa using hnew
    rw [htext]
    exact read_eq_ok_iff.2 ⟨l, content, hresolve', at?_writeAll_of_notMem hat hunwritten, hutf⟩

/-- A job over settled texts changes nothing. -/
theorem perform_of_isSettled
    (h : ∀ p ∈ paths, ∃ text, fs.read p = .ok text ∧ IsSettled parse job.limits.allowErrors text) :
    ∃ report, fs.perform parse job paths = some (fs, report) ∧
      ∀ r ∈ report.files, r.status = .unchanged := by
  have hsettle : ∀ p ∈ paths, ∀ text, fs.read p = .ok text →
      job.limits.settle parse text = .ok ⟨text, 1, [], false⟩ := by
    intro p hp text htext
    obtain ⟨text', hread, hsettled⟩ := h p hp
    cases hread.symm.trans htext
    exact Limits.settle_of_isSettled hsettled
  have hsome : fs.perform parse job paths ≠ none := by
    rw [Ne, perform_eq_none_iff]
    rintro ⟨p, hp, text, htext, hbad⟩
    cases (hsettle p hp text htext).symm.trans hbad
  obtain ⟨⟨fs₂, report⟩, hperform⟩ := Option.ne_none_iff_exists'.1 hsome
  obtain ⟨reports, ws, hreports, rfl, hws, hfiles⟩ := perform_eq_some hperform
  have hnil : ws = [] := by
    refine List.eq_nil_iff_forall_not_mem.2 fun w hw => ?_
    obtain ⟨⟨p, hp, hpath⟩, ⟨content, text, _, hat, hutf, _⟩, _⟩ := ((hws w).1 hw).2
    have htext := read_eq_ok_iff.2 ⟨w.1, content, hpath, hat, hutf⟩
    cases (((hws w).1 hw).2.of_settle hat hutf (hsettle p hp text htext)).1
  subst hnil
  refine ⟨report, hperform, fun r hr => ?_⟩
  rw [hfiles, List.mem_map] at hr
  obtain ⟨r, hr, rfl⟩ := hr
  obtain ⟨p, hp, hprocess⟩ := (mem_iff_of_mapM hreports).1 hr
  obtain ⟨text, htext, _⟩ := h p hp
  rw [process_of_settle htext (hsettle p hp text htext)] at hprocess
  cases hprocess
  rw [concluded]
  split <;> rfl

end FileSystem

/-! ### Exit codes -/

def Summary.count (s : Summary) : Status → Nat
  | .unchanged => s.unchanged
  | .changed => s.changed
  | .failed => s.failed

theorem Summary.count_add (s : Summary) (r : FileReport) (status : Status) :
    (s.add r).count status = s.count status + if r.status = status then 1 else 0 := by
  rw [add]
  cases hr : r.status <;> cases status <;> rfl

theorem Report.count_summary (r : Report) (status : Status) :
    r.summary.count status = r.files.countP (·.status = status) := by
  have hfold : ∀ (files : List FileReport) (s : Summary),
      (files.foldl Summary.add s).count status =
        s.count status + files.countP (·.status = status) := by
    intro files
    induction files with
    | nil => exact fun s => rfl
    | cons f files ih =>
      intro s
      rw [List.foldl_cons, ih, Summary.count_add, List.countP_cons]
      simp only [decide_eq_true_eq]
      omega
  rw [summary, hfold]
  cases status <;> exact Nat.zero_add _

theorem Report.count_summary_eq_zero_iff {r : Report} (status : Status) :
    r.summary.count status = 0 ↔ ∀ f ∈ r.files, f.status ≠ status := by
  rw [count_summary, List.countP_eq_zero]
  simp

theorem exitCode_eq_zero_iff {job : Job} {r : Report} :
    exitCode job r.summary = 0 ↔ (∀ f ∈ r.files, f.status ≠ .failed) ∧
      (job.check = true → ∀ f ∈ r.files, f.status ≠ .changed) := by
  rw [← Report.count_summary_eq_zero_iff, ← Report.count_summary_eq_zero_iff, exitCode,
    Summary.count, Summary.count]
  cases job.check <;> simp

/-! ### Runs -/

namespace Arguments

variable {a : Arguments} {tools : Tools} {fs : FileSystem} {r : CommandResult}

def settings (a : Arguments) (tools : Tools) (fs : FileSystem) : Settings :=
  (a.targets.head?.map fun t => (fs.settingsFor tools.decode t).1).getD {}

def files (a : Arguments) (tools : Tools) (fs : FileSystem) : List Path :=
  fs.gather (fs.expand tools.walk (a.search (a.settings tools fs))) a.targets

theorem run_of_exists (h : a.targets.all fs.exists? = true) {fs' : FileSystem} {report : Report}
    (hperform : fs.perform tools.parse (a.job (a.settings tools fs)) (a.files tools fs) =
      some (fs', report)) :
    ∃ output, a.run tools fs =
      some ⟨exitCode (a.job (a.settings tools fs)) report.summary, output, fs'⟩ := by
  rw [settings, files, settings] at hperform
  rw [run, if_pos h]
  simp only [hperform]
  exact ⟨_, rfl⟩

theorem perform_of_run (hrun : a.run tools fs = some r) (hcode : r.code = 0) :
    a.targets.all fs.exists? = true ∧
      ∃ report, fs.perform tools.parse (a.job (a.settings tools fs)) (a.files tools fs) =
          some (r.fs, report) ∧
        exitCode (a.job (a.settings tools fs)) report.summary = 0 := by
  cases hexists : a.targets.all fs.exists? with
  | false =>
    rw [run, if_neg (by simp [hexists])] at hrun
    cases hrun
    cases hcode
  | true =>
    refine ⟨rfl, ?_⟩
    cases hperform : fs.perform tools.parse (a.job (a.settings tools fs)) (a.files tools fs) with
    | none =>
      rw [settings, files, settings] at hperform
      rw [run, if_pos hexists] at hrun
      simp only [hperform] at hrun
      cases hrun
    | some result =>
      obtain ⟨output, hrun'⟩ := run_of_exists hexists hperform
      cases hrun.symm.trans hrun'
      exact ⟨result.2, rfl, hcode⟩

/-- A run after one that wrote and succeeded: it goes by the same settings, is about the same
files, and finds all of them settled. -/
theorem run_after {own : FileSystem → Location → Prop} {a' : Arguments}
    (hwalk : tools.walk.ReadsRules own) (hrun : a.run tools fs = some r) (hcode : r.code = 0)
    (hkeeps : FileSystem.Keeps own fs r.fs) (happly : a.has .apply = true)
    (htargets : a'.targets = a.targets) (hsearch : ∀ s, a'.search s = a.search s)
    (hlimits : ∀ s, a'.limits s = a.limits s) :
    ∃ r', a'.run tools r.fs = some r' ∧ r'.code = 0 ∧ r'.fs = r.fs := by
  obtain ⟨hexists, report, hperform, hzero⟩ := perform_of_run hrun hcode
  have hexists' : a'.targets.all r.fs.exists? = true := by
    have hsame : r.fs.exists? = fs.exists? := by
      funext p
      rw [← FileSystem.hollow_exists?, hkeeps.hollow, FileSystem.hollow_exists?]
    rw [htargets, hsame, hexists]
  have hsettings : a'.settings tools r.fs = a.settings tools fs := by
    simp only [settings, htargets, hkeeps.settingsFor_eq]
  have hfiles : a'.files tools r.fs = a.files tools fs := by
    rw [files, files, hsettings, hsearch, htargets, hkeeps.gather_eq hwalk]
  have hsettled : ∀ p ∈ a'.files tools r.fs, ∃ text, r.fs.read p = .ok text ∧
      IsSettled tools.parse (a'.job (a'.settings tools r.fs)).limits.allowErrors text := by
    intro p hp
    rw [hfiles] at hp
    have hallow :
        (a'.job (a'.settings tools r.fs)).limits = (a.job (a.settings tools fs)).limits := by
      rw [hsettings]
      exact hlimits _
    rw [hallow]
    exact FileSystem.exists_settled_of_perform happly hperform (exitCode_eq_zero_iff.1 hzero).1 hp
  obtain ⟨report', hperform', hunchanged⟩ := FileSystem.perform_of_isSettled hsettled
  obtain ⟨output, hrun'⟩ := run_of_exists hexists' hperform'
  have hzero' : exitCode (a'.job (a'.settings tools r.fs)) report'.summary = 0 := by
    refine exitCode_eq_zero_iff.2 ⟨fun f hf => ?_, fun _ f hf => ?_⟩
    · rw [hunchanged f hf]
      exact nofun
    · rw [hunchanged f hf]
      exact nofun
  exact ⟨_, hrun', hzero', rfl⟩

theorem hollow_of_run (hrun : a.run tools fs = some r) (hcode : r.code = 0) :
    r.fs.hollow = fs.hollow := by
  obtain ⟨_, report, hperform, _⟩ := perform_of_run hrun hcode
  obtain ⟨_, ws, _, hfs, _, _⟩ := FileSystem.perform_eq_some hperform
  rw [hfs, FileSystem.hollow_writeAll]

/-- A run that is not to write leaves every file as it is. -/
theorem fs_eq_of_run (happly : a.has .apply = false) (hrun : a.run tools fs = some r)
    (hcode : r.code = 0) : r.fs = fs := by
  obtain ⟨_, report, hperform, _⟩ := perform_of_run hrun hcode
  obtain ⟨_, ws, _, hfs, hws, _⟩ := FileSystem.perform_eq_some hperform
  have hnil : ws = [] := by
    refine List.eq_nil_iff_forall_not_mem.2 fun w hw => ?_
    have happly' : a.has .apply = true := ((hws w).1 hw).1
    rw [happly] at happly'
    cases happly'
  rw [hfs, hnil]
  rfl

theorem swapped_limits (s : Settings) : a.swapped.limits s = a.limits s := by
  have hhas : a.swapped.has .allowErrors = a.has .allowErrors := a.swapped_contains .allowErrors
  rw [limits, limits, hhas]
  rfl

end Arguments

section Words

variable {tools : Tools} {fs : FileSystem} {words : List String}

theorem runCommand_of_ok {a : Arguments} (h : tools.read words = .ok a) :
    runCommand tools fs words = a.run tools fs := by
  rw [runCommand, h]

theorem runCommand_of_error {stop : ArgumentStop} (h : tools.read words = .error stop) :
    runCommand tools fs words =
      stop.text?.elim (some ⟨2, "", fs⟩) fun text => some ⟨0, text, fs⟩ := by
  rw [runCommand, h]
  dsimp only
  cases stop.text? <;> rfl

end Words

/-- After a run that writes and succeeds, a second such run changes nothing, and a check passes
unless the arguments ask for it themselves. Both hold as long as none of the files written
governs the run. -/
theorem runCommand_apply_settles {tools : Tools} {own : FileSystem → Location → Prop}
    (hwalk : tools.walk.ReadsRules own) (hread : tools.read.TakesCheck) {fs : FileSystem}
    {words : List String} {r : CommandResult}
    (hrun : runCommand tools fs ("--apply" :: words) = some r) (hcode : r.code = 0)
    (hwritten : ∀ w ∈ r.fs.changedSince fs, ¬ fs.Governs own w.1) :
    ("--check" ∉ words.takeWhile (· != "--") →
      ∃ r', runCommand tools r.fs ("--check" :: words) = some r' ∧ r'.code = 0) ∧
    ∃ r', runCommand tools r.fs ("--apply" :: words) = some r' ∧ r'.code = 0 ∧ r'.fs = r.fs := by
  cases hwords : tools.read ("--apply" :: words) with
  | error stop =>
    rw [runCommand_of_error hwords] at hrun
    cases htext : stop.text? with
    | none =>
      rw [htext] at hrun
      cases hrun
      cases hcode
    | some text =>
      rw [htext] at hrun
      cases hrun
      refine ⟨fun hnone => ?_, ⟨_, by rw [runCommand_of_error hwords, htext]; rfl, rfl, rfl⟩⟩
      have hcheck := hread.text words stop text hnone hwords htext
      exact ⟨_, by rw [runCommand_of_error hcheck, htext]; rfl, rfl⟩
  | ok a =>
    rw [runCommand_of_ok hwords] at hrun
    have hkeeps : FileSystem.Keeps own fs r.fs :=
      FileSystem.keeps_of_changedSince (Arguments.hollow_of_run hrun hcode) hwritten
    constructor
    · intro hnone
      obtain ⟨hcheck, happly⟩ := hread.ok words a hnone hwords
      have hafter : ∃ r', a.swapped.run tools r.fs = some r' ∧ r'.code = 0 ∧ r'.fs = r.fs :=
        Arguments.run_after hwalk hrun hcode hkeeps (List.contains_iff_mem.2 happly) rfl
          (fun s => rfl) Arguments.swapped_limits
      obtain ⟨r', hrun', hcode', _⟩ := hafter
      rw [runCommand_of_ok hcheck]
      exact ⟨r', hrun', hcode'⟩
    · rw [runCommand_of_ok hwords]
      cases happly : a.has .apply with
      | true =>
        exact Arguments.run_after hwalk hrun hcode hkeeps happly rfl (fun s => rfl) fun s => rfl
      | false =>
        -- Nothing was written, so the second run starts where the first did.
        rw [Arguments.fs_eq_of_run happly hrun hcode]
        exact ⟨r, hrun, hcode, Arguments.fs_eq_of_run happly hrun hcode⟩

def parseAssertion (text : String) : Node :=
  if text = "static_assert(true);\n" then
    ⟨.other "translation_unit", 0, 21, true, false,
      [⟨.staticAssertion, 0, 20, true, false,
        [.token (.other "static_assert") 0 13, .token .openParen 13 14,
          ⟨.trueLiteral, 14, 18, true, false, []⟩, .token .closeParen 18 19,
          .token (.other ";") 19 20]⟩]⟩
  else
    ⟨.other "translation_unit", 0, text.utf8ByteSize, true, false,
      [.token .identifier 0 text.utf8ByteSize]⟩

def linkedAssertion : FileSystem where
  top := .folder [("a.cpp", .file "static_assert(true);\n".toUTF8),
    ("l.cpp", .link ⟨false, ["a.cpp"]⟩)]

theorem lacks_linkedAssertion {name : String} (ha : name ≠ "a.cpp") (hl : name ≠ "l.cpp") :
    linkedAssertion.Lacks name := by
  intro l entries h
  cases l with
  | nil =>
    cases h
    simp only [List.lookup_cons, beq_eq_false_iff_ne.2 ha, beq_eq_false_iff_ne.2 hl,
      List.lookup_nil]
  | cons n rest =>
    -- Below the top there are a file and a link only.
    rw [FileSystem.at?, linkedAssertion, Entry.at?] at h
    split at h
    next e he =>
      obtain ⟨front, behind, heq, _⟩ := List.lookup_eq_some_iff.1 he
      have hmem : (n, e) ∈ front ++ (n, e) :: behind := by simp
      rw [← heq] at hmem
      simp only [List.mem_cons, Prod.mk.injEq, List.not_mem_nil, or_false] at hmem
      rcases hmem with ⟨_, rfl⟩ | ⟨_, rfl⟩ <;> cases rest <;> cases h
    next => cases h

theorem not_governs_linkedAssertion (c : Location) :
    ¬ linkedAssertion.Governs (FileSystem.OwnRules none) c := by
  refine FileSystem.not_governs_of_lacks ?_ (fun name hname => lacks_linkedAssertion ?_ ?_) c
  · rintro c ⟨p, hp, _⟩
    cases hp
  · revert name
    decide
  · revert name
    decide

def assertionTools : Tools := .standard parseAssertion none

theorem runCommand_apply_settles_linkedAssertion :
    ∃ r r₁ r₂,
      runCommand assertionTools linkedAssertion ["--apply", "--", "l.cpp", "a.cpp"] = some r ∧
      r.code = 0 ∧ (r.fs.changedSince linkedAssertion).map Prod.fst = [["a.cpp"]] ∧
      runCommand assertionTools r.fs ["--check", "--", "l.cpp", "a.cpp"] = some r₁ ∧ r₁.code = 0 ∧
      runCommand assertionTools r.fs ["--apply", "--", "l.cpp", "a.cpp"] = some r₂ ∧
      r₂.code = 0 ∧ r₂.fs = r.fs := by
  have heval : (runCommand assertionTools linkedAssertion ["--apply", "--", "l.cpp", "a.cpp"]).any
      (fun r => r.code == 0 &&
        (r.fs.changedSince linkedAssertion).map Prod.fst == [["a.cpp"]]) = true := by
    decide +kernel
  cases hrun : runCommand assertionTools linkedAssertion ["--apply", "--", "l.cpp", "a.cpp"] with
  | none =>
    rw [hrun] at heval
    cases heval
  | some r =>
    rw [hrun, Option.any_some, Bool.and_eq_true, beq_iff_eq, beq_iff_eq] at heval
    obtain ⟨hcheck, r₂, hrun₂, hcode₂, hfs⟩ := runCommand_apply_settles
      (ignoreWalk_readsRules none) Arguments.parse_takesCheck hrun heval.1
      fun w _ => not_governs_linkedAssertion w.1
    obtain ⟨r₁, hrun₁, hcode₁⟩ := hcheck (by decide)
    exact ⟨r, r₁, r₂, rfl, heval.1, heval.2, hrun₁, hcode₁, hrun₂, hcode₂, hfs⟩

/-- Whether a location bears the name of a settings file or of one with ignore rules. -/
def Location.isRuleName (l : Location) : Bool :=
  [settingsName, ".gitignore", ".ignore"].any (l.getLast? == some ·) ||
    [".git", "info", "exclude"].isSuffixOf l

/-- A run writes and succeeds, no file that it has written bears the name of one with rules, and
yet a check fails after it. -/
def checkFailsAfter (tools : Tools) (fs : FileSystem) (words : List String) : Bool :=
  (runCommand tools fs ("--apply" :: words)).any fun r =>
    r.code == 0 && (r.fs.changedSince fs).all (!·.1.isRuleName) &&
      (runCommand tools r.fs ("--check" :: words)).any (·.code != 0)

/-- Ignore rules in a file of another name, which a link leads to. -/
def linkedRules : FileSystem where
  top := .folder [(".ignore", .link ⟨false, ["rules"]⟩),
    ("rules", .file "static_assert(true);\n".toUTF8),
    ("static_assert(true);", .folder [("b.cpp", .file "static_assert(true);\n".toUTF8)])]

def worktreeRules : FileSystem where
  top := .folder [(".git", .file "gitdir: wt\n".toUTF8),
    ("b.cpp", .file "static_assert(true);\n".toUTF8),
    ("static_assert(true);", .folder [("info", .folder [("exclude", .file "b.cpp\n".toUTF8)])]),
    ("wt", .folder [("commondir", .file "static_assert(true);\n".toUTF8)])]

def sharedRules : FileSystem where
  top := .folder [("ignore", .file "static_assert(true);\n".toUTF8),
    ("r", .folder [(".git", .folder []),
      ("static_assert(true);", .folder [("b.cpp", .file "static_assert(true);\n".toUTF8)])])]

theorem checkFailsAfter_apply :
    checkFailsAfter assertionTools ⟨.folder [], []⟩ ["--check", "--version"] = true ∧
      checkFailsAfter assertionTools linkedRules ["--quiet", "rules", "."] = true ∧
      checkFailsAfter assertionTools worktreeRules ["--quiet", "wt/commondir", "."] = true ∧
      checkFailsAfter (.standard parseAssertion (some ⟨true, ["ignore"]⟩)) sharedRules
        ["--quiet", "ignore", "r"] = true := by
  decide +kernel

end Downlevel
