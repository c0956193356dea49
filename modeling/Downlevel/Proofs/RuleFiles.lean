import Downlevel.Ignore.Walk
import Downlevel.Proofs.Governing
import Downlevel.Proofs.PathOrder

/-!
# Files that a walk reads

A walk that heeds ignore files reads those, the files that lead it to the rules of
a worktree, and the file with the user's own rules. Of all other files it reads
the names only.
-/

namespace Downlevel

namespace FileSystem

variable {fs fs' : FileSystem}

def Lacks (fs : FileSystem) (name : String) : Prop :=
  ∀ l entries, fs.at? l = some (.folder entries) → entries.lookup name = none

section Lacks

variable {name : String} (hlacks : fs.Lacks name) (hblank : ¬ (name = "" ∨ name = "."))
  (hup : name ≠ "..")

include hlacks hblank hup

theorem followTo_of_lacks {onLink : Location → List String → Except SystemFault Location}
    (honLink : ∀ l pieces c, onLink l (pieces ++ [name]) ≠ .ok c) (here : Location)
    (pieces : List String) (c : Location) : fs.followTo onLink here (pieces ++ [name]) ≠ .ok c := by
  induction pieces generalizing here with
  | nil =>
    rw [List.nil_append, followTo]
    cases hat : fs.at? here with
    | none => simp
    | some e =>
      cases e with
      | file content => simp
      | link target => simp
      | folder entries =>
        simp [hblank, hup, hlacks here entries hat]
  | cons piece pieces ih =>
    rw [List.cons_append, followTo]
    cases fs.at? here with
    | none => simp
    | some e =>
      cases e with
      | file content => simp
      | link target => simp
      | folder entries =>
        dsimp only
        split
        · exact ih here
        · split
          · exact ih here.dropLast
          · cases entries.lookup piece with
            | none => simp
            | some e =>
              cases e with
              | file content => exact ih _
              | folder entries => exact ih _
              | link target =>
                dsimp only
                rw [← List.append_assoc]
                exact honLink _ _ c

/-- A path that ends in a name leads nowhere if no entry bears it. -/
theorem follow_of_lacks (links : Nat) (here : Location) (pieces : List String) (c : Location) :
    fs.follow links here (pieces ++ [name]) ≠ .ok c := by
  induction links generalizing here pieces c with
  | zero =>
    refine followTo_of_lacks hlacks hblank hup (fun _ _ _ h => ?_) here pieces c
    cases h
  | succ links ih => exact followTo_of_lacks hlacks hblank hup ih here pieces c

end Lacks

/-- Where there are no settings, no ignore files, no repository and no rules of the user, no file
governs. -/
theorem not_governs_of_lacks {own : FileSystem → Location → Prop} (hown : ∀ c, ¬ own fs c)
    (h : ∀ name ∈ [settingsName, ".ignore", ".gitignore", ".git", "exclude"], fs.Lacks name)
    (c : Location) : ¬ fs.Governs own c := by
  have hfollow : ∀ name ∈ [settingsName, ".ignore", ".gitignore", ".git", "exclude"],
      ∀ l pieces c, fs.follow linkLimit l (pieces ++ [name]) ≠ .ok c := by
    intro name hname
    refine follow_of_lacks (h name hname) ?_ ?_ linkLimit
    · revert name
      decide
    · revert name
      decide
  rintro (⟨folder, hfolder⟩ | ⟨l, f, hf, hrules⟩ | hrules)
  · obtain ⟨pieces, hpieces⟩ := folder.exists_pieces_join settingsName
    rw [resolve, hpieces] at hfolder
    split at hfolder
    · cases hfolder
    · exact hfollow settingsName (by simp) _ _ _ hfolder
  · have hline : fs.firstLine? l [".git"] = none := by
      rw [firstLine?, content?]
      cases hgit : fs.follow linkLimit l [".git"] with
      | error f => rfl
      | ok c' => exact absurd hgit (hfollow ".git" (by simp) l [] c')
    rw [ruleFiles, worktreeFiles, hline, Option.bind_none, List.append_nil] at hf
    rcases List.mem_cons.1 hf with rfl | hf
    · exact hfollow ".ignore" (by simp) l [] c hrules
    rcases List.mem_cons.1 hf with rfl | hf
    · exact hfollow ".gitignore" (by simp) l [] c hrules
    rcases List.mem_cons.1 hf with rfl | hf
    · exact hfollow ".git" (by simp) l [] c hrules
    · cases List.mem_singleton.1 hf
      exact hfollow "exclude" (by simp) l [".git", "info"] c hrules
  · exact hown c hrules

/-! ### Rules -/

theorem ruleFiles_of_worktree {l : Location} {line : String} {worktree : Path}
    (hline : fs.firstLine? l [".git"] = some line) (hworktree : worktree? line = some worktree) :
    fs.ruleFiles l =
      [(l, [".ignore"]), (l, [".gitignore"]), (l, [".git"]), (l, [".git", "info", "exclude"]),
        (fs.startOf worktree, worktree.pieces ++ ["commondir"])] ++
      ((fs.firstLine? (fs.startOf worktree) (worktree.pieces ++ ["commondir"])).map
        (fs.sharedExclude worktree)).toList := by
  rw [ruleFiles, worktreeFiles, hline, Option.bind_some, hworktree]
  rfl

/-- The names are the same, and so are the contents of the files with ignore rules. -/
structure SameRules (fs fs' : FileSystem) : Prop where
  hollow : fs'.hollow = fs.hollow
  content : ∀ c, fs.HoldsRules c → fs'.fileAt? c = fs.fileAt? c

theorem content?_eq (hhollow : fs'.hollow = fs.hollow) {l : Location} {pieces : List String}
    (h : ∀ c, fs.follow linkLimit l pieces = .ok c → fs'.fileAt? c = fs.fileAt? c) :
    fs'.content? l pieces = fs.content? l pieces := by
  rw [content?, content?, follow_eq hhollow]
  cases hfollow : fs.follow linkLimit l pieces with
  | error e => rfl
  | ok c => exact h c hfollow

theorem startOf_eq (h : fs'.hollow = fs.hollow) (p : Path) : fs'.startOf p = fs.startOf p := by
  rw [startOf, startOf, current_eq h]

namespace SameRules

variable (h : SameRules fs fs')

include h

theorem content?_eq {l : Location} {f : Location × List String} (hf : f ∈ fs.ruleFiles l) :
    fs'.content? f.1 f.2 = fs.content? f.1 f.2 :=
  FileSystem.content?_eq h.hollow fun c hc => h.content c ⟨l, f, hf, hc⟩

theorem rulesAt_eq {l : Location} {f : Location × List String} (hf : f ∈ fs.ruleFiles l) :
    fs'.rulesAt f.1 f.2 = fs.rulesAt f.1 f.2 := by
  rw [rulesAt, rulesAt, h.content?_eq hf]

theorem firstLine?_eq {l : Location} {f : Location × List String} (hf : f ∈ fs.ruleFiles l) :
    fs'.firstLine? f.1 f.2 = fs.firstLine? f.1 f.2 := by
  rw [firstLine?, firstLine?, h.content?_eq hf]

theorem excludeRules_eq (l : Location) : fs'.excludeRules l = fs.excludeRules l := by
  have hgit : (l, [".git"]) ∈ fs.ruleFiles l := by simp [ruleFiles]
  have hexclude : (l, [".git", "info", "exclude"]) ∈ fs.ruleFiles l := by simp [ruleFiles]
  simp only [excludeRules, h.firstLine?_eq hgit, startOf_eq h.hollow]
  cases hline : fs.firstLine? l [".git"] with
  | none => exact h.rulesAt_eq hexclude
  | some line =>
    dsimp only
    split
    next rest hrest =>
      have hworktree : worktree? line = some (Path.ofText (String.ofList rest)) := by
        rw [worktree?, hrest]
        rfl
      generalize Path.ofText (String.ofList rest) = worktree at hworktree ⊢
      have hfiles := ruleFiles_of_worktree hline hworktree
      have hcommon : (fs.startOf worktree, worktree.pieces ++ ["commondir"]) ∈ fs.ruleFiles l := by
        simp [hfiles]
      rw [h.firstLine?_eq hcommon]
      cases hshared : fs.firstLine? (fs.startOf worktree) (worktree.pieces ++ ["commondir"]) with
      | none => rfl
      | some line' =>
        have hmem : fs.sharedExclude worktree line' ∈ fs.ruleFiles l := by simp [hfiles, hshared]
        have hrules := h.rulesAt_eq hmem
        dsimp only
        by_cases hdot : line'.startsWith "." = true
        · rw [sharedExclude, if_pos hdot] at hrules
          rw [if_pos hdot, if_pos hdot, hrules]
        · rw [sharedExclude, if_neg hdot] at hrules
          rw [if_neg hdot, if_neg hdot, hrules]
    next => rfl

theorem ignoreScope_eq (l : Location) : fs'.ignoreScope l = fs.ignoreScope l := by
  have hplain : (l, [".ignore"]) ∈ fs.ruleFiles l := by simp [ruleFiles]
  have hgit : (l, [".gitignore"]) ∈ fs.ruleFiles l := by simp [ruleFiles]
  rw [ignoreScope, ignoreScope, h.rulesAt_eq hplain, h.rulesAt_eq hgit, h.excludeRules_eq]
  simp only [follow_eq h.hollow]

theorem scopesAbove_eq (l : Location) : fs'.scopesAbove l = fs.scopesAbove l := by
  simp only [scopesAbove, h.ignoreScope_eq]

end SameRules

/-! ### Walks -/

section Walk

variable {ownRules : List IgnoreRule} {keep : Visit → Bool}

mutual

/-- A walk reads no contents but those of ignore files. -/
theorem walk_hollow (hscope : ∀ l, fs'.ignoreScope l = fs.ignoreScope l)
    (hcurrent : fs'.current = fs.current) (scopes : List IgnoreScope) (l : Location) (path : Path)
    (e : Entry) :
    fs'.walk ownRules keep scopes l path e.hollow = fs.walk ownRules keep scopes l path e := by
  cases e with
  | file content => rfl
  | link target => rfl
  | folder entries =>
    rw [Entry.hollow, walk, walk, hscope]
    exact walkAll_hollow hscope hcurrent _ l path entries

theorem walkAll_hollow (hscope : ∀ l, fs'.ignoreScope l = fs.ignoreScope l)
    (hcurrent : fs'.current = fs.current) (scopes : List IgnoreScope) (l : Location) (path : Path)
    (entries : List (String × Entry)) :
    fs'.walkAll ownRules keep scopes l path (Entry.hollows entries) =
      fs.walkAll ownRules keep scopes l path entries := by
  cases entries with
  | nil => rfl
  | cons entry rest =>
    obtain ⟨name, e⟩ := entry
    have hfolder : e.hollow.isFolder = e.isFolder := by cases e <;> rfl
    rw [Entry.hollows, walkAll, walkAll, hfolder, namesHere, namesHere, hcurrent,
      walk_hollow hscope hcurrent scopes _ _ e, walkAll_hollow hscope hcurrent scopes l path rest]

end

theorem walk_eq (hscope : ∀ l, fs'.ignoreScope l = fs.ignoreScope l)
    (hcurrent : fs'.current = fs.current) {e e' : Entry} (he : e'.hollow = e.hollow)
    (scopes : List IgnoreScope) (l : Location) (path : Path) :
    fs'.walk ownRules keep scopes l path e' = fs.walk ownRules keep scopes l path e :=
  calc fs'.walk ownRules keep scopes l path e'
      = fs'.walk ownRules keep scopes l path e'.hollow :=
        (walk_hollow (fun _ => rfl) rfl scopes l path e').symm
    _ = fs'.walk ownRules keep scopes l path e.hollow := by rw [he]
    _ = fs.walk ownRules keep scopes l path e := walk_hollow hscope hcurrent scopes l path e

end Walk

theorem hollow_isLink (p : Path) : fs.hollow.isLink p = fs.isLink p := by
  rw [isLink, isLink, hollow_resolve]
  cases p.pieces.getLast? with
  | none => rfl
  | some name =>
    cases fs.resolve ⟨p.rooted, p.pieces.dropLast ++ ["."]⟩ with
    | error f => rfl
    | ok l =>
      simp only [at?_hollow]
      cases Component.ofPiece? name with
      | none => rfl
      | some component =>
        cases fs.at? (l ++ [name]) with
        | none => rfl
        | some e => cases e <;> cases component <;> rfl

theorem rootVisit_eq (h : fs'.hollow = fs.hollow) (root : Path) :
    fs'.rootVisit root = fs.rootVisit root := by
  rw [rootVisit, rootVisit, ← hollow_isFolder, ← hollow_isLink, h, hollow_isFolder, hollow_isLink]

def OwnRules (path? : Option Path) (fs : FileSystem) (c : Location) : Prop :=
  ∃ p, path? = some p ∧ fs.follow linkLimit (fs.startOf p) p.pieces = .ok c

end FileSystem

theorem ignoreWalk_readsRules (ownRules : Option Path) :
    (ignoreWalk ownRules).ReadsRules (FileSystem.OwnRules ownRules) := by
  intro fs fs' hhollow hcontent
  have hrules : FileSystem.SameRules fs fs' := ⟨hhollow, fun c hc => hcontent c (Or.inl hc)⟩
  have hown : (ownRules.elim [] fun p => fs'.rulesAt (fs'.startOf p) p.pieces) =
      ownRules.elim [] fun p => fs.rulesAt (fs.startOf p) p.pieces := by
    cases ownRules with
    | none => rfl
    | some p =>
      rw [Option.elim_some, Option.elim_some, FileSystem.rulesAt, FileSystem.rulesAt,
        FileSystem.startOf_eq hhollow, FileSystem.content?_eq hhollow]
      exact fun c hc => hcontent c (Or.inr ⟨p, rfl, hc⟩)
  have hbelow : ∀ own keep scopes l path,
      (fs'.at? l).elim [] (fs'.walk own keep scopes l path) =
        (fs.at? l).elim [] (fs.walk own keep scopes l path) := by
    intro own keep scopes l path
    have hat := FileSystem.at?_eq hhollow l
    cases he : fs.at? l with
    | none =>
      rw [he, Option.map_none, Option.map_eq_none_iff] at hat
      rw [hat]
      rfl
    | some e =>
      rw [he, Option.map_some] at hat
      obtain ⟨e', he', hsame⟩ := Option.map_eq_some_iff.1 hat
      rw [he']
      exact FileSystem.walk_eq hrules.ignoreScope_eq (FileSystem.current_eq hhollow) hsame _ _ _
  funext root keep
  simp only [ignoreWalk, FileSystem.resolve_eq hhollow, hown, hbelow, hrules.scopesAbove_eq,
    FileSystem.rootVisit_eq hhollow]

end Downlevel
