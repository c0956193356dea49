import Downlevel.Job.Perform
import Downlevel.Proofs.Files
import Downlevel.Proofs.Settle
import Mathlib.Data.List.Perm.Basic

/-!
# What a job writes

A job writes a file if a listed path leads to it, its text settles to another
one, and it lies below a root. All of this is known before the first write, and
writes change nothing of it. So neither the order in which files are listed nor
how often one is listed bears on what the job leaves, and no file bears on what
becomes of another.
-/

namespace Downlevel

theorem eq_toUTF8_of_fromUTF8? {content : ByteArray} {text : String}
    (h : String.fromUTF8? content = some text) : content = text.toUTF8 := by
  rw [String.fromUTF8?] at h
  split at h
  · cases h
    rfl
  · cases h

theorem fromUTF8?_toUTF8 (text : String) : String.fromUTF8? text.toUTF8 = some text := by
  have hvalid : text.toUTF8.IsValidUTF8 := text.isValidUTF8
  rw [String.fromUTF8?, dif_pos hvalid]
  rfl

theorem mapM_eq_some_iff {α β : Type} {f : α → Option β} {xs : List α} {ys : List β} :
    xs.mapM f = some ys ↔ List.Forall₂ (fun x y => f x = some y) xs ys := by
  induction xs generalizing ys with
  | nil =>
    rw [List.mapM_nil, List.forall₂_nil_left_iff]
    exact ⟨fun h => (Option.some.inj h).symm, fun h => by rw [h]; rfl⟩
  | cons x xs ih =>
    rw [List.mapM_cons, List.forall₂_cons_left_iff]
    constructor
    · intro h
      obtain ⟨y, hy, h⟩ := Option.bind_eq_some_iff.1 h
      obtain ⟨zs, hzs, h⟩ := Option.bind_eq_some_iff.1 h
      exact ⟨y, zs, hy, ih.1 hzs, (Option.some.inj h).symm⟩
    · rintro ⟨y, zs, hy, hzs, rfl⟩
      rw [hy, ih.2 hzs]
      rfl

theorem mapM_eq_none_iff {α β : Type} {f : α → Option β} {xs : List α} :
    xs.mapM f = none ↔ ∃ x ∈ xs, f x = none := by
  induction xs with
  | nil => simp
  | cons x xs ih =>
    rw [List.mapM_cons, List.exists_mem_cons_iff, ← ih]
    cases f x with
    | none => simp
    | some y => cases xs.mapM f <;> simp

theorem mem_iff_of_mapM {α β : Type} {f : α → Option β} {xs : List α} {ys : List β}
    (h : xs.mapM f = some ys) {y : β} : y ∈ ys ↔ ∃ x ∈ xs, f x = some y := by
  have hall := mapM_eq_some_iff.1 h
  clear h
  induction hall with
  | nil => simp
  | @cons a b as bs hab _ ih =>
    rw [List.mem_cons, List.exists_mem_cons_iff, hab, Option.some.injEq, eq_comm]
    exact or_congr_right ih

theorem exists_mem_of_mapM {α β : Type} {f : α → Option β} {xs : List α} {ys : List β}
    (h : xs.mapM f = some ys) {x : α} (hx : x ∈ xs) : ∃ y ∈ ys, f x = some y := by
  cases hfx : f x with
  | none =>
    rw [mapM_eq_none_iff.2 ⟨x, hx, hfx⟩] at h
    cases h
  | some y => exact ⟨y, (mem_iff_of_mapM h).2 ⟨x, hx, hfx⟩, rfl⟩

theorem checkedPass_ne_badCut {parse : String → Node} {allowErrors : Bool} {text : String}
    (h : (Document.mk text (parse text)).WellFormed) :
    checkedPass parse allowErrors text ≠ .error .badCut := by
  have hpass : (Document.mk text (parse text)).pass ≠ .error .badCut := by
    intro hbad
    have hyields := h.yields_pass
    rw [hbad] at hyields
    cases hyields.isRefusal
  rw [checkedPass]
  split
  · exact hpass
  · split
    · simp
    · exact hpass

/-- With a parser whose trees fit their texts, no text is cut outside its characters. -/
theorem Limits.settle_ne_badCut {parse : String → Node} {l : Limits}
    (h : ∀ text, (Document.mk text (parse text)).WellFormed) {source : String} :
    l.settle parse source ≠ .error .badCut := by
  have hfrom : ∀ fuel done text, l.settleFrom parse source fuel done text ≠ .error .badCut := by
    intro fuel
    induction fuel with
    | zero => simp [settleFrom]
    | succ fuel ih =>
      intro done text
      cases hpass : checkedPass parse l.allowErrors text with
      | error f =>
        rw [settleFrom, hpass]
        rintro ⟨⟩
        exact checkedPass_ne_badCut (h text) hpass
      | ok report =>
        rcases eq_or_ne report.edits [] with hnil | hedits
        · simp [settleFrom_of_isSettled ⟨report, hpass, hnil⟩]
        · rw [settleFrom_of_edits hpass hedits]
          exact ih _ _
  exact hfrom l.passes [] source

theorem FileReport.status_settle_eq_changed {r : FileReport} {s : Settled} :
    (r.settle s).status = .changed ↔ s.changed = true := by
  rw [settle]
  cases s.changed <;> simp

namespace FileSystem

variable {fs fs' : FileSystem}

/-! ### Reading -/

theorem read_eq_ok_iff {p : Path} {text : String} :
    fs.read p = .ok text ↔ ∃ l content, fs.resolve p = .ok l ∧
      fs.at? l = some (.file content) ∧ String.fromUTF8? content = some text := by
  rw [read]
  cases hresolve : fs.resolve p with
  | error f => simp
  | ok l =>
    simp only [Except.ok.injEq, exists_eq_left', exists_and_left]
    cases hat : fs.at? l with
    | none => simp
    | some e =>
      cases e with
      | folder entries => simp
      | link target => simp
      | file content =>
        simp only [Option.some.injEq, Entry.file.injEq, exists_eq_left']
        cases String.fromUTF8? content <;> simp

theorem within_eq_ok_iff {path root : Path} {l : Location} :
    fs.within path root = .ok l ↔
      fs.resolve path = .ok l ∧ ∃ r, fs.resolve root = .ok r ∧ r <+: l := by
  rw [within]
  cases fs.resolve path with
  | error f => simp
  | ok l' =>
    cases fs.resolve root with
    | error f => simp
    | ok r =>
      simp only [Except.ok.injEq, exists_eq_left', ← List.isPrefixOf_iff_prefix]
      constructor
      · intro h
        split at h
        · cases h
          exact ⟨rfl, ‹_›⟩
        · cases h
      · rintro ⟨rfl, h⟩
        rw [if_pos h]

/-- A path may be written if it leads below any of the roots. -/
theorem withinAny_eq_ok_iff {path : Path} {roots : List Path} {l : Location} :
    fs.withinAny path roots = .ok l ↔
      fs.resolve path = .ok l ∧ ∃ root ∈ roots, ∃ r, fs.resolve root = .ok r ∧ r <+: l := by
  have hany : (∃ root ∈ roots, fs.within path root = .ok l) ↔
      fs.resolve path = .ok l ∧ ∃ root ∈ roots, ∃ r, fs.resolve root = .ok r ∧ r <+: l := by
    simp only [within_eq_ok_iff]
    grind
  rw [← hany]
  clear hany
  fun_induction withinAny fs path roots with
  | case1 => simp
  | case2 root => simp
  | case3 root roots hne l' hwithin =>
    rw [List.exists_mem_cons_iff]
    constructor
    · rintro h
      cases h
      exact Or.inl hwithin
    · rintro (h | ⟨root', _, h⟩)
      · exact hwithin.symm.trans h
      · rw [within_eq_ok_iff] at h hwithin
        rw [hwithin.1] at h
        rw [Except.ok.inj h.1]
  | case4 root roots hne f hwithin ih =>
    rw [List.exists_mem_cons_iff, hwithin]
    simpa using ih

theorem withinAny_eq (h : fs'.hollow = fs.hollow) (path : Path) (roots : List Path) :
    fs'.withinAny path roots = fs.withinAny path roots := by
  have hwithin : fs'.within = fs.within := by
    funext path root
    rw [within, within, resolve_eq h, resolve_eq h]
  fun_induction withinAny fs path roots with
  | case1 => rfl
  | case2 root => rw [withinAny, hwithin]
  | case3 root roots hne l hok =>
    rw [withinAny, hwithin, hok]
    exact hne
  | case4 root roots hne f hfault ih =>
    rw [withinAny, hwithin, hfault]
    · exact ih
    · exact hne

/-! ### Writing -/

def writeAll (fs : FileSystem) (ws : List (Location × String)) : FileSystem :=
  ws.foldl (fun fs w => fs.write w.1 w.2) fs

theorem hollow_writeAll (ws : List (Location × String)) : (fs.writeAll ws).hollow = fs.hollow := by
  induction ws generalizing fs with
  | nil => rfl
  | cons w ws ih => exact ih.trans (hollow_write w.1 w.2)

theorem at?_writeAll_of_notMem {ws : List (Location × String)} {c : Location}
    {content : ByteArray} (hat : fs.at? c = some (.file content)) (h : ∀ w ∈ ws, w.1 ≠ c) :
    (fs.writeAll ws).at? c = some (.file content) := by
  induction ws generalizing fs with
  | nil => exact hat
  | cons w ws ih =>
    have hne : c ≠ w.1 := (h w List.mem_cons_self).symm
    exact ih (at?_write_of_ne hne hat w.2) fun v hv => h v (List.mem_cons_of_mem w hv)

/-- No file is given two different texts. -/
def Consistent (ws : List (Location × String)) : Prop :=
  ∀ w ∈ ws, ∀ v ∈ ws, w.1 = v.1 → w.2 = v.2

theorem Consistent.of_subset {ws vs : List (Location × String)} (hws : Consistent ws)
    (h : vs ⊆ ws) : Consistent vs :=
  fun w hw v hv => hws w (h hw) v (h hv)

/-- After consistent writes, a written file holds what was written to it. -/
theorem at?_writeAll_of_mem {ws : List (Location × String)} {w : Location × String}
    {content : ByteArray} (hws : Consistent ws) (hw : w ∈ ws)
    (hat : fs.at? w.1 = some (.file content)) :
    (fs.writeAll ws).at? w.1 = some (.file w.2.toUTF8) := by
  induction ws generalizing fs content w with
  | nil => cases hw
  | cons v ws ih =>
    by_cases hlater : ∃ u ∈ ws, u.1 = w.1
    · -- What the first write leaves there is overwritten by a later one with the same text.
      obtain ⟨u, hu, huw⟩ := hlater
      obtain ⟨content', hat'⟩ := exists_file (hollow_write v.1 v.2) hat
      rw [← hws u (List.mem_cons_of_mem v hu) w hw huw]
      rw [← huw] at hat' ⊢
      exact ih (hws.of_subset (List.subset_cons_self v ws)) hu hat'
    · have hne : ∀ u ∈ ws, u.1 ≠ w.1 := fun u hu huw => hlater ⟨u, hu, huw⟩
      rcases List.mem_cons.1 hw with rfl | hw
      · change ((fs.write w.1 w.2).writeAll ws).at? w.1 = _
        exact at?_writeAll_of_notMem (at?_write_self hat w.2) hne
      · exact absurd rfl (hne w hw)

theorem writeAll_append (ws vs : List (Location × String)) :
    fs.writeAll (ws ++ vs) = (fs.writeAll ws).writeAll vs :=
  List.foldl_append

theorem writeAll_perm {ws vs : List (Location × String)} (hws : Consistent ws)
    (h : ws.Perm vs) : fs.writeAll ws = fs.writeAll vs :=
  h.foldl_eq' (fun w hw v hv _ => write_comm (hws w hw v hv)) fs

/-- A write that was made already changes nothing. -/
theorem write_writeAll {ws : List (Location × String)} (hws : Consistent ws)
    {w : Location × String} (hw : w ∈ ws) :
    (fs.writeAll ws).write w.1 w.2 = fs.writeAll ws := by
  obtain ⟨front, behind, rfl⟩ := List.append_of_mem hw
  have hlast : (front ++ w :: behind).Perm (front ++ behind ++ [w]) :=
    List.perm_middle.trans (List.perm_append_singleton w _).symm
  have hwrite : fs.writeAll (front ++ behind ++ [w]) =
      (fs.writeAll (front ++ behind)).write w.1 w.2 := writeAll_append _ _
  rw [writeAll_perm hws hlast, hwrite, write_write]

theorem writeAll_append_of_subset {ws vs : List (Location × String)} (hws : Consistent ws)
    (h : vs ⊆ ws) : fs.writeAll (ws ++ vs) = fs.writeAll ws := by
  rw [writeAll_append]
  induction vs with
  | nil => rfl
  | cons v vs ih =>
    change ((fs.writeAll ws).write v.1 v.2).writeAll vs = _
    rw [write_writeAll hws (h List.mem_cons_self)]
    exact ih fun u hu => h (List.mem_cons_of_mem v hu)

/-- Which writes are made decides what they leave, not their order or how often one is made. -/
theorem writeAll_eq_of_mem_iff {ws vs : List (Location × String)} (hws : Consistent ws)
    (h : ∀ w, w ∈ vs ↔ w ∈ ws) : fs.writeAll vs = fs.writeAll ws := by
  have hboth : Consistent (ws ++ vs) :=
    hws.of_subset (List.append_subset.2 ⟨List.Subset.refl ws, fun w => (h w).1⟩)
  calc fs.writeAll vs
      = fs.writeAll (vs ++ ws) :=
        (writeAll_append_of_subset (hws.of_subset fun w => (h w).1) fun w => (h w).2).symm
    _ = fs.writeAll (ws ++ vs) := (writeAll_perm hboth List.perm_append_comm).symm
    _ = fs.writeAll ws := writeAll_append_of_subset hws fun w => (h w).1

/-! ### Writing back -/

/-- The write that a report asks for, if the file may be written. -/
def pending? (fs : FileSystem) (roots : List Path) (r : FileReport) : Option (Location × String) :=
  if r.status = .changed then
    match r.text?, fs.withinAny r.path roots with
    | some text, .ok l => some (l, text)
    | _, _ => none
  else none

theorem pending?_eq_some_iff {roots : List Path} {r : FileReport} {w : Location × String} :
    fs.pending? roots r = some w ↔ r.status = .changed ∧ r.text? = some w.2 ∧
      fs.withinAny r.path roots = .ok w.1 := by
  rw [pending?]
  split
  case isFalse hstatus => simp [hstatus]
  case isTrue hstatus =>
    cases r.text? with
    | none => simp
    | some text =>
      cases fs.withinAny r.path roots with
      | error f => simp
      | ok l => simp [hstatus, Prod.ext_iff, and_comm]

theorem pending?_eq (h : fs'.hollow = fs.hollow) (roots : List Path) :
    fs'.pending? roots = fs.pending? roots := by
  funext r
  rw [pending?, pending?, withinAny_eq h]

section WriteBack

variable {roots : List Path} {r : FileReport} {text : String}

theorem writeBack_of_ne (h : r.status ≠ .changed) : fs.writeBack roots r = (fs, r) := by
  rw [writeBack, if_neg h]

theorem writeBack_of_within {l : Location} (hstatus : r.status = .changed)
    (htext : r.text? = some text) (hwithin : fs.withinAny r.path roots = .ok l) :
    fs.writeBack roots r = (fs.write l text, { r with written := true }) := by
  rw [writeBack, if_pos hstatus, htext]
  simp only [hwithin]

theorem writeBack_of_refused {f : ContainmentFault} (hstatus : r.status = .changed)
    (htext : r.text? = some text) (hwithin : fs.withinAny r.path roots = .error f) :
    fs.writeBack roots r = (fs, r.fail f.message none) := by
  rw [writeBack, if_pos hstatus, htext]
  simp only [hwithin]

end WriteBack

theorem writeBack_fst (roots : List Path) (r : FileReport) :
    (fs.writeBack roots r).1 = fs.writeAll (fs.pending? roots r).toList := by
  rw [writeBack, pending?]
  split
  case isFalse => rfl
  case isTrue =>
    cases r.text? with
    | none => rfl
    | some text => cases fs.withinAny r.path roots <;> rfl

theorem writeBack_snd_eq (h : fs'.hollow = fs.hollow) (roots : List Path) (r : FileReport) :
    (fs'.writeBack roots r).2 = (fs.writeBack roots r).2 := by
  rw [writeBack, writeBack, withinAny_eq h]
  split
  case isFalse => rfl
  case isTrue =>
    cases r.text? with
    | none => rfl
    | some text => cases fs.withinAny r.path roots <;> rfl

theorem writeBackAll_cons (roots : List Path) (r : FileReport) (rs : List FileReport) :
    fs.writeBackAll roots (r :: rs) =
      (((fs.writeBack roots r).1.writeBackAll roots rs).1,
        (fs.writeBack roots r).2 :: ((fs.writeBack roots r).1.writeBackAll roots rs).2) := rfl

/-- What is written back, and what is reported of it, is settled by the file system as it was
before the first write. -/
theorem writeBackAll_eq (roots : List Path) (rs : List FileReport) :
    fs.writeBackAll roots rs = (fs.writeAll (rs.filterMap (fs.pending? roots)),
      rs.map fun r => (fs.writeBack roots r).2) := by
  induction rs generalizing fs with
  | nil => rfl
  | cons r rs ih =>
    have hhollow : (fs.writeBack roots r).1.hollow = fs.hollow := by
      rw [writeBack_fst, hollow_writeAll]
    rw [writeBackAll_cons, ih, List.map_cons]
    refine Prod.ext ?_ ?_
    · change (fs.writeBack roots r).1.writeAll _ = _
      rw [pending?_eq hhollow, writeBack_fst, ← writeAll_append]
      cases hr : fs.pending? roots r <;> simp [hr]
    · change _ :: _ = _ :: _
      congr 1
      exact List.map_congr_left fun r' _ => writeBack_snd_eq hhollow roots r'

/-! ### Jobs -/

section Process

variable {parse : String → Node} {limits : Limits} {p : Path}

/-- What becomes of one file before anything is written. -/
theorem process_eq_some {r : FileReport} (h : fs.process parse limits p = some r) :
    (∃ f, fs.read p = .error f ∧ r = (FileReport.new p).fail f.message none) ∨
      ∃ text, fs.read p = .ok text ∧
        ((∃ s, limits.settle parse text = .ok s ∧ r = (FileReport.new p).settle s) ∨
          ∃ f, limits.settle parse text = .error f ∧ f ≠ .badCut ∧
            r = (FileReport.new p).fail f.message (f.offset?.map (Text.placeOf text))) := by
  rw [process] at h
  cases hread : fs.read p with
  | error f =>
    rw [hread] at h
    cases h
    exact Or.inl ⟨f, rfl, rfl⟩
  | ok text =>
    rw [hread] at h
    refine Or.inr ⟨text, rfl, ?_⟩
    cases hsettle : limits.settle parse text with
    | ok s =>
      simp only [hsettle] at h
      cases h
      exact Or.inl ⟨s, rfl, rfl⟩
    | error f =>
      simp only [hsettle] at h
      refine Or.inr ⟨f, rfl, ?_⟩
      cases f <;> cases h <;> exact ⟨nofun, rfl⟩

theorem process_of_settle {text : String} {s : Settled} (hread : fs.read p = .ok text)
    (hsettle : limits.settle parse text = .ok s) :
    fs.process parse limits p = some ((FileReport.new p).settle s) := by
  rw [process, hread]
  simp only [hsettle]

/-- There is no report only where a text would have to be cut outside its characters. -/
theorem process_eq_none_iff : fs.process parse limits p = none ↔
    ∃ text, fs.read p = .ok text ∧ limits.settle parse text = .error .badCut := by
  rw [process]
  cases fs.read p with
  | error f => simp
  | ok text =>
    simp only [Except.ok.injEq, exists_eq_left']
    cases limits.settle parse text with
    | ok s => simp
    | error f => cases f <;> simp

end Process

/-- The file at `c` is to be given the text `new`: a listed path leads to it, its own text
settles to `new` and differs from it, and it lies below a root or is one. -/
def Due (fs : FileSystem) (parse : String → Node) (job : Job) (paths : List Path) (c : Location)
    (new : String) : Prop :=
  (∃ p ∈ paths, fs.resolve p = .ok c) ∧
    (∃ content text s, fs.at? c = some (.file content) ∧ String.fromUTF8? content = some text ∧
      job.limits.settle parse text = .ok s ∧ s.changed = true ∧ s.text = new) ∧
    ∃ root ∈ job.roots, ∃ r, fs.resolve root = .ok r ∧ r <+: c

section Perform

variable {parse : String → Node} {job : Job} {paths : List Path}

/-- All paths to a file that is due find the same text in it. -/
theorem Due.of_settle {c : Location} {new text : String} {content : ByteArray} {s : Settled}
    (h : fs.Due parse job paths c new) (hat : fs.at? c = some (.file content))
    (hutf : String.fromUTF8? content = some text)
    (hsettle : job.limits.settle parse text = .ok s) : s.changed = true ∧ s.text = new := by
  obtain ⟨_, ⟨content', text', s', hat', hutf', hsettle', hchanged, hnew⟩, _⟩ := h
  cases hat.symm.trans hat'
  cases hutf.symm.trans hutf'
  cases hsettle.symm.trans hsettle'
  exact ⟨hchanged, hnew⟩

theorem Due.unique {c : Location} {new new' : String} (h : fs.Due parse job paths c new)
    (h' : fs.Due parse job paths c new') : new = new' := by
  obtain ⟨_, ⟨content, text, s, hat, hutf, hsettle, _, rfl⟩, _⟩ := h
  exact (h'.of_settle hat hutf hsettle).2

theorem exists_pending_iff {p : Path} {w : Location × String} :
    (∃ r, fs.process parse job.limits p = some r ∧ fs.pending? job.roots r = some w) ↔
      ∃ text s, fs.read p = .ok text ∧ job.limits.settle parse text = .ok s ∧
        s.changed = true ∧ fs.withinAny p job.roots = .ok w.1 ∧ s.text = w.2 := by
  constructor
  · rintro ⟨r, hprocess, hpending⟩
    obtain ⟨hstatus, htext, hwithin⟩ := pending?_eq_some_iff.1 hpending
    rcases process_eq_some hprocess with ⟨f, _, rfl⟩ |
      ⟨text, hread, ⟨s, hsettle, rfl⟩ | ⟨f, _, _, rfl⟩⟩
    · cases hstatus
    · exact ⟨text, s, hread, hsettle, FileReport.status_settle_eq_changed.1 hstatus, hwithin,
        Option.some.inj htext⟩
    · cases hstatus
  · rintro ⟨text, s, hread, hsettle, hchanged, hwithin, htext⟩
    exact ⟨_, process_of_settle hread hsettle, pending?_eq_some_iff.2
      ⟨FileReport.status_settle_eq_changed.2 hchanged, congrArg some htext, hwithin⟩⟩

/-- The writes of a job are those that are due. -/
theorem mem_pending_iff_due {reports : List FileReport}
    (h : paths.mapM (fs.process parse job.limits) = some reports) {w : Location × String} :
    w ∈ reports.filterMap (fs.pending? job.roots) ↔ fs.Due parse job paths w.1 w.2 := by
  rw [List.mem_filterMap]
  constructor
  · rintro ⟨r, hr, hpending⟩
    obtain ⟨p, hp, hprocess⟩ := (mem_iff_of_mapM h).1 hr
    obtain ⟨text, s, hread, hsettle, hchanged, hwithin, htext⟩ :=
      exists_pending_iff.1 ⟨r, hprocess, hpending⟩
    obtain ⟨l, content, hresolve, hat, hutf⟩ := read_eq_ok_iff.1 hread
    obtain ⟨hpath, hroot⟩ := withinAny_eq_ok_iff.1 hwithin
    obtain rfl : l = w.1 := Except.ok.inj (hresolve.symm.trans hpath)
    exact ⟨⟨p, hp, hpath⟩, ⟨content, text, s, hat, hutf, hsettle, hchanged, htext⟩, hroot⟩
  · rintro ⟨⟨p, hp, hpath⟩, ⟨content, text, s, hat, hutf, hsettle, hchanged, htext⟩, hroot⟩
    have hread : fs.read p = .ok text := read_eq_ok_iff.2 ⟨w.1, content, hpath, hat, hutf⟩
    obtain ⟨r, hprocess, hpending⟩ := exists_pending_iff.2
      ⟨text, s, hread, hsettle, hchanged, withinAny_eq_ok_iff.2 ⟨hpath, hroot⟩, htext⟩
    exact ⟨r, (mem_iff_of_mapM h).2 ⟨p, hp, hprocess⟩, hpending⟩

theorem consistent_of_due {ws : List (Location × String)}
    (h : ∀ w ∈ ws, fs.Due parse job paths w.1 w.2) : Consistent ws := by
  intro w hw v hv hwv
  have hdue := h v hv
  rw [← hwv] at hdue
  exact (h w hw).unique hdue

/-- The report on a file after it was written back, if the job is to do so. -/
def concluded (fs : FileSystem) (job : Job) (r : FileReport) : FileReport :=
  if job.apply then (fs.writeBack job.roots r).2 else r

/-- A job that ends has made the writes that are due, if it is to write at all. -/
theorem perform_eq_some {report : Report} (h : fs.perform parse job paths = some (fs', report)) :
    ∃ reports ws, paths.mapM (fs.process parse job.limits) = some reports ∧
      fs' = fs.writeAll ws ∧ (∀ w, w ∈ ws ↔ job.apply = true ∧ fs.Due parse job paths w.1 w.2) ∧
      report.files = reports.map (fs.concluded job) := by
  rw [perform] at h
  cases hreports : paths.mapM (fs.process parse job.limits) with
  | none =>
    rw [hreports] at h
    cases h
  | some reports =>
    rw [hreports] at h
    cases happly : job.apply with
    | false =>
      simp only [happly] at h
      cases h
      have hconcluded : fs.concluded job = id := funext fun r => if_neg (by simp [happly])
      exact ⟨reports, [], rfl, rfl, by simp, by rw [hconcluded, List.map_id]⟩
    | true =>
      simp only [happly, if_true, writeBackAll_eq] at h
      cases h
      have hconcluded : fs.concluded job = fun r => (fs.writeBack job.roots r).2 :=
        funext fun r => if_pos happly
      refine ⟨reports, _, rfl, rfl, fun w => ?_, by rw [hconcluded]⟩
      rw [mem_pending_iff_due hreports]
      simp

theorem perform_singleton {p : Path} {r : FileReport}
    (h : fs.process parse job.limits p = some r) :
    ∃ fs', fs.perform parse job [p] = some (fs', ⟨[fs.concluded job r]⟩) := by
  have hreports : [p].mapM (fs.process parse job.limits) = some [r] :=
    mapM_eq_some_iff.2 (.cons h .nil)
  rw [perform, hreports, concluded]
  cases job.apply with
  | false => exact ⟨fs, rfl⟩
  | true => exact ⟨(fs.writeBack job.roots r).1, rfl⟩

theorem perform_eq_none_iff : fs.perform parse job paths = none ↔
    ∃ p ∈ paths, ∃ text, fs.read p = .ok text ∧
      job.limits.settle parse text = .error .badCut := by
  simp only [← process_eq_none_iff, ← mapM_eq_none_iff]
  rw [perform]
  cases paths.mapM (fs.process parse job.limits) with
  | none => simp
  | some reports => cases job.apply <;> simp

/-- A file that a job is to write holds its new text afterwards, which differs from the old
one. -/
theorem Due.at?_writeAll {ws : List (Location × String)} {c : Location} {before : ByteArray}
    {new : String} (h : fs.Due parse job paths c new) (hat : fs.at? c = some (.file before))
    (hws : Consistent ws) (hmem : (c, new) ∈ ws) :
    (fs.writeAll ws).at? c = some (.file new.toUTF8) ∧ new.toUTF8 ≠ before := by
  refine ⟨at?_writeAll_of_mem hws hmem hat, ?_⟩
  obtain ⟨_, ⟨content, text, s, hat', htext, hsettle, hchanged, rfl⟩, _⟩ := h
  cases hat.symm.trans hat'
  rw [eq_toUTF8_of_fromUTF8? htext]
  intro heq
  have hne := (Limits.settleFrom_eq_ok .start hsettle).2.2
  rw [hchanged, String.toByteArray_inj.1 heq] at hne
  simp at hne

theorem due_congr {paths' : List Path} (h : ∀ p, p ∈ paths' ↔ p ∈ paths) (c : Location)
    (new : String) : fs.Due parse job paths' c new ↔ fs.Due parse job paths c new := by
  simp only [Due, h]

/-- A job changes exactly the files that are due, to the texts that their own old ones settle to,
and neither makes nor removes a file. Each listed file is reported on as if it were the only one.
Jobs that list the same files leave the same file system. -/
theorem perform_rewrites_due (fs : FileSystem) (parse : String → Node) (job : Job)
    (paths : List Path) :
    (fs.perform parse job paths = none ↔ ∃ p ∈ paths, ∃ text, fs.read p = .ok text ∧
      job.limits.settle parse text = .error .badCut) ∧
    ((∀ text, (Document.mk text (parse text)).WellFormed) →
      ∃ result, fs.perform parse job paths = some result) ∧
    ∀ fs' report, fs.perform parse job paths = some (fs', report) →
      fs'.hollow = fs.hollow ∧
      (∀ c before, fs.at? c = some (.file before) →
        ∃ after, fs'.at? c = some (.file after) ∧
          (after ≠ before ↔ job.apply = true ∧ ∃ new, fs.Due parse job paths c new) ∧
          ∀ new, job.apply = true → fs.Due parse job paths c new → after = new.toUTF8) ∧
      List.Forall₂ (fun p r => ∃ alone, fs.perform parse job [p] = some (alone, ⟨[r]⟩))
        paths report.files ∧
      ∀ paths', (∀ p, p ∈ paths' ↔ p ∈ paths) →
        ∃ report', fs.perform parse job paths' = some (fs', report') := by
  refine ⟨perform_eq_none_iff, fun hwf => ?_, fun fs' report h => ?_⟩
  · rw [← Option.ne_none_iff_exists']
    intro hnone
    obtain ⟨p, _, text, _, hbad⟩ := perform_eq_none_iff.1 hnone
    exact Limits.settle_ne_badCut hwf hbad
  obtain ⟨reports, ws, hreports, rfl, hws, hfiles⟩ := perform_eq_some h
  have hconsistent : Consistent ws := consistent_of_due fun w hw => ((hws w).1 hw).2
  refine ⟨hollow_writeAll ws, fun c before hat => ?_, ?_, fun paths' hpaths => ?_⟩
  · by_cases hdue : job.apply = true ∧ ∃ new, fs.Due parse job paths c new
    · obtain ⟨happly, new, hnew⟩ := hdue
      obtain ⟨hafter, hne⟩ := hnew.at?_writeAll hat hconsistent ((hws _).2 ⟨happly, hnew⟩)
      exact ⟨new.toUTF8, hafter, iff_of_true hne ⟨happly, new, hnew⟩,
        fun new' _ hnew' => by rw [hnew.unique hnew']⟩
    · have hunwritten : ∀ w ∈ ws, w.1 ≠ c := by
        rintro w hw rfl
        exact hdue ⟨((hws w).1 hw).1, w.2, ((hws w).1 hw).2⟩
      exact ⟨before, at?_writeAll_of_notMem hat hunwritten, iff_of_false (· rfl) hdue,
        fun new happly hnew => absurd ⟨happly, new, hnew⟩ hdue⟩
  · rw [hfiles, List.forall₂_map_right_iff]
    exact (mapM_eq_some_iff.1 hreports).imp fun p r hr => perform_singleton hr
  · have hsome : fs.perform parse job paths' ≠ none := by
      intro hnone
      rw [perform_eq_none_iff] at hnone
      simp only [hpaths] at hnone
      rw [perform_eq_none_iff.2 hnone] at h
      cases h
    obtain ⟨⟨fs₂, report'⟩, h'⟩ := Option.ne_none_iff_exists'.1 hsome
    obtain ⟨_, ws', _, rfl, hws', _⟩ := perform_eq_some h'
    have hsame : fs.writeAll ws' = fs.writeAll ws :=
      writeAll_eq_of_mem_iff hconsistent fun w => by rw [hws', hws, due_congr hpaths]
    exact ⟨report', by rw [h', hsame]⟩

end Perform

open Limits (parseFold)

/-- A file with a fold, and a link to it from the folder beside it. -/
def linkedFold : FileSystem where
  top := .folder [("a.cpp", .file "(é*...);".toUTF8),
    ("b", .folder [("c.cpp", .link ⟨false, ["..", "a.cpp"]⟩)])]

def applyHere : Job := { apply := true, roots := [⟨false, ["."]⟩] }

theorem settle_parseFold : Limits.settle parseFold {} "(é*...);" =
    .ok ⟨"fold_expr_mul_right(é...);", 2, [1], true⟩ :=
  (Limits.settleFrom_of_edits Limits.checkedPass_parseFold (by decide) _).trans
    (Limits.settleFrom_of_isSettled Limits.isSettled_parseFold _)

theorem wellFormed_parseFold (text : String) :
    (Document.mk text (parseFold text)).WellFormed := by
  rw [parseFold]
  split
  next h =>
    subst h
    decide
  next =>
    -- The tree is a root and one token, which both cover the whole text.
    have hmem : ∀ n ∈ (⟨.other "translation_unit", 0, text.utf8ByteSize, true, false,
        [.token .identifier 0 text.utf8ByteSize]⟩ : Node).preorder,
        n = ⟨.other "translation_unit", 0, text.utf8ByteSize, true, false,
          [.token .identifier 0 text.utf8ByteSize]⟩ ∨
        n = .token .identifier 0 text.utf8ByteSize := by
      intro n hn
      simpa [Node.preorder, Node.preorders, Node.token] using hn
    refine ⟨⟨⟨fun n hn => ?_, fun n hn => ?_⟩, fun n hn hk => ?_, fun n hn _ ht => ?_⟩,
      fun n hn hk => ?_, fun n hn hk => ?_⟩
    · rcases hmem n hn with rfl | rfl
      · exact ⟨Nat.zero_le _, by simp [Node.token], by simp⟩
      · exact ⟨Nat.zero_le _, by simp [Node.token], by simp [Node.token]⟩
    · rcases hmem n hn with rfl | rfl <;>
        exact ⟨Text.isBoundary_zero text, Text.isBoundary_utf8ByteSize text⟩
    · rcases hmem n hn with rfl | rfl <;> cases hk
    · obtain rfl : n = .token .identifier 0 text.utf8ByteSize := by
        simpa [Node.preorder, Node.preorders, Node.token] using hn
      cases ht
    · rcases hmem n hn with rfl | rfl <;> cases hk
    · rcases hmem n hn with rfl | rfl <;> rcases hk with hk | hk <;> cases hk

theorem perform_rewrites_due_linkedFold :
    ∃ fs' report report',
      linkedFold.perform parseFold applyHere [⟨false, ["b", "c.cpp"]⟩, ⟨false, ["b"]⟩] =
        some (fs', report) ∧
      fs'.at? ["a.cpp"] = some (.file "fold_expr_mul_right(é...);".toUTF8) ∧
      linkedFold.perform parseFold applyHere
        [⟨false, ["b"]⟩, ⟨false, ["b", "c.cpp"]⟩, ⟨false, ["b"]⟩] = some (fs', report') := by
  have hresolve : linkedFold.resolve ⟨false, ["b", "c.cpp"]⟩ = .ok ["a.cpp"] := by rfl
  obtain ⟨-, hyields, hsome⟩ := perform_rewrites_due linkedFold parseFold applyHere
    [⟨false, ["b", "c.cpp"]⟩, ⟨false, ["b"]⟩]
  obtain ⟨⟨fs', report⟩, h⟩ := hyields wellFormed_parseFold
  obtain ⟨-, hfiles, -, hpaths⟩ := hsome fs' report h
  obtain ⟨report', h'⟩ := hpaths [⟨false, ["b"]⟩, ⟨false, ["b", "c.cpp"]⟩, ⟨false, ["b"]⟩]
    (fun p => by simp; tauto)
  have hdue : linkedFold.Due parseFold applyHere [⟨false, ["b", "c.cpp"]⟩, ⟨false, ["b"]⟩]
      ["a.cpp"] "fold_expr_mul_right(é...);" := by
    refine ⟨⟨_, List.mem_cons_self, hresolve⟩, ?_, ?_⟩
    · exact ⟨_, _, _, rfl, fromUTF8?_toUTF8 _, settle_parseFold, rfl, rfl⟩
    · exact ⟨⟨false, ["."]⟩, List.mem_cons_self, [], by rfl, List.nil_prefix⟩
  obtain ⟨after, hafter, -, hnew⟩ := hfiles ["a.cpp"] "(é*...);".toUTF8 rfl
  rw [hnew _ rfl hdue] at hafter
  exact ⟨fs', report, report', h, hafter, h'⟩

end FileSystem

end Downlevel
