import Downlevel.Command
import Downlevel.Proofs.Discovery

/-!
# Gathering files

Targets may overlap in any way, so the same file can be met under several paths.
A path is kept unless an earlier one leads to the same file. What has been seen
grows along the list and only ever by what stands in front, so the paths kept
from a list are those kept from its front, followed by those kept from the rest
given all that the front has shown.
-/

namespace Downlevel.FileSystem

variable {fs : FileSystem}

/-- Two paths lead to the same location, or both lead nowhere and have the same components. -/
inductive SameFile (fs : FileSystem) (p q : Path) : Prop
  | found {l : Location} (hp : fs.resolve p = .ok l) (hq : fs.resolve q = .ok l)
  | lost {f g : SystemFault} (hp : fs.resolve p = .error f) (hq : fs.resolve q = .error g)
      (h : p.components = q.components)

theorem fileKey_eq_iff {p q : Path} : fs.fileKey p = fs.fileKey q ↔ fs.SameFile p q := by
  unfold fileKey
  constructor
  · intro h
    cases hp : fs.resolve p with
    | ok l =>
      cases hq : fs.resolve q with
      | ok l' =>
        rw [hp, hq] at h
        exact .found hp (Sum.inl.inj h ▸ hq)
      | error g => simp [hp, hq] at h
    | error f =>
      cases hq : fs.resolve q with
      | ok l' => simp [hp, hq] at h
      | error g =>
        rw [hp, hq] at h
        exact .lost hp hq (Sum.inr.inj h)
  · rintro (⟨hp, hq⟩ | ⟨hp, hq, h⟩)
    · rw [hp, hq]
    · rw [hp, hq, h]

/-! ### Paths for keys -/

/-- The path from the top to the file, or, if the path leads nowhere, that one itself. -/
def pathKey (fs : FileSystem) (p : Path) : Path :=
  match fs.resolve p with
  | .ok l => Location.path l
  | .error _ => p

/-- The path leads somewhere, or it ends in a name, as that of a link to nowhere does. -/
def HasEnd (fs : FileSystem) (p : Path) : Prop :=
  (∃ l, fs.resolve p = .ok l) ∨ ∃ front name, p.pieces = front ++ [name] ∧ IsName name

theorem exists_entries_of_isFolder {p : Path} (h : fs.isFolder p = true) :
    ∃ entries, fs.find? p = some (.folder entries) := by
  rw [isFolder] at h
  split at h
  next entries hfind => exact ⟨entries, hfind⟩
  next => cases h

/-- A path that leads nowhere is not spelled like the path from the top to a file. -/
theorem components_ne_of_lost {q : Path} {l : Location} {f : SystemFault}
    (hl : fs.IsCanonical l) (hq : fs.resolve q = .error f) (hend : fs.HasEnd q) :
    q.components ≠ (Location.path l).components := by
  rcases hend with ⟨l', hl'⟩ | ⟨front, name, hpieces, hname⟩
  · cases hq.symm.trans hl'
  · intro h
    rw [Location.components_path hl.names] at h
    cases hq.symm.trans ((resolve_of_components h hpieces hname).trans hl.resolve_path)

/-- The paths that a target stands for have an end, if it exists. -/
theorem hasEnd_of_mem_expand {walk : Walker} {isText : String → Bool} {search : Search}
    {target p : Path} (hexists : fs.exists? target = true)
    (hwalk : ∀ entries, fs.find? target = some (.folder entries) →
      Entry.WellNamed entries ∧ walk.Enumerates isText fs target (.folder entries))
    (hp : p ∈ fs.expand walk search target) : fs.HasEnd p := by
  have htarget : fs.HasEnd target := by
    rw [exists?, find?] at hexists
    cases hresolve : fs.resolve target with
    | ok l => exact Or.inl ⟨l, hresolve⟩
    | error f =>
      rw [hresolve] at hexists
      cases hexists
  rw [expand] at hp
  split_ifs at hp with hisFolder
  · obtain ⟨entries, hfolder⟩ := exists_entries_of_isFolder hisFolder
    obtain ⟨hnamed, henumerates⟩ := hwalk entries hfolder
    rcases ((mem_collect_iff hnamed henumerates hfolder).1 hp).2 with
      ⟨rfl, _⟩ | ⟨ns, e, hne, rfl, hat, _⟩
    · exact htarget
    · obtain ⟨front, name, rfl⟩ := (List.eq_nil_or_concat' ns).resolve_left hne
      obtain ⟨pieces, hpieces⟩ := (target.joinAll front).exists_pieces_join name
      refine Or.inr ⟨pieces, name, ?_, hnamed.isName_of_at? hne hat name (by simp)⟩
      rw [← hpieces, Path.joinAll, List.foldl_append]
      rfl
  · rwa [List.mem_singleton.1 hp]

/-- Among such paths, the keys that lead somewhere and those that do not never meet: keys can be
compared as paths are. -/
theorem components_pathKey_eq_iff (hcurrent : fs.IsCanonical fs.current) {p q : Path}
    (hp : fs.HasEnd p) (hq : fs.HasEnd q) :
    (fs.pathKey p).components = (fs.pathKey q).components ↔ fs.fileKey p = fs.fileKey q := by
  unfold pathKey fileKey
  cases hp' : fs.resolve p with
  | ok l =>
    have hl : fs.IsCanonical l := resolve_isCanonical hcurrent hp'
    cases hq' : fs.resolve q with
    | ok l' =>
      have hl' : fs.IsCanonical l' := resolve_isCanonical hcurrent hq'
      dsimp only
      rw [Location.components_path hl.names, Location.components_path hl'.names, List.cons.injEq,
        List.map_inj_right fun _ _ => Component.name.inj]
      simp
    | error g => exact iff_of_false (components_ne_of_lost hl hq' hq).symm (by simp)
  | error f =>
    cases hq' : fs.resolve q with
    | ok l' =>
      have hl' : fs.IsCanonical l' := resolve_isCanonical hcurrent hq'
      exact iff_of_false (components_ne_of_lost hl' hp' hp) (by simp)
    | error g => simp

/-- So of the paths that existing targets stand for, it is enough to compare the keys as paths. -/
theorem components_pathKey_eq_iff_sameFile {walk : Walker} {isText : String → Bool}
    {search : Search} {targets : List Path} (hcurrent : fs.IsCanonical fs.current)
    (hexists : ∀ target ∈ targets, fs.exists? target = true)
    (hwalk : ∀ target ∈ targets, ∀ entries, fs.find? target = some (.folder entries) →
      Entry.WellNamed entries ∧ walk.Enumerates isText fs target (.folder entries))
    {p q : Path} (hp : p ∈ targets.flatMap (fs.expand walk search))
    (hq : q ∈ targets.flatMap (fs.expand walk search)) :
    (fs.pathKey p).components = (fs.pathKey q).components ↔ fs.SameFile p q := by
  have hend : ∀ p ∈ targets.flatMap (fs.expand walk search), fs.HasEnd p := by
    intro p hp
    obtain ⟨target, htarget, hp⟩ := List.mem_flatMap.1 hp
    exact hasEnd_of_mem_expand (hexists target htarget) (hwalk target htarget) hp
  rw [components_pathKey_eq_iff hcurrent (hend p hp) (hend q hq), fileKey_eq_iff]

/-! ### Keeping the first -/

instance : LawfulBEq (Location ⊕ List Component) where
  rfl {key} := by
    cases key with
    | inl l => exact beq_self_eq_true l
    | inr components => exact beq_self_eq_true components
  eq_of_beq {key key'} h := by
    cases key <;> cases key' <;> first | exact congrArg _ (eq_of_beq h) | cases h

theorem distinct_cons_of_mem {seen : List (Location ⊕ List Component)} {p : Path}
    (h : fs.fileKey p ∈ seen) (ps : List Path) :
    fs.distinct seen (p :: ps) = fs.distinct seen ps := by
  rw [distinct, if_pos (List.contains_iff_mem.2 h)]

theorem distinct_cons_of_notMem {seen : List (Location ⊕ List Component)} {p : Path}
    (h : fs.fileKey p ∉ seen) (ps : List Path) :
    fs.distinct seen (p :: ps) = p :: fs.distinct (fs.fileKey p :: seen) ps := by
  rw [distinct, if_neg (by rwa [List.contains_iff_mem])]

theorem distinct_sublist (seen : List (Location ⊕ List Component)) (ps : List Path) :
    (fs.distinct seen ps).Sublist ps := by
  induction ps generalizing seen with
  | nil => exact List.Sublist.slnil
  | cons p ps ih =>
    by_cases hp : fs.fileKey p ∈ seen
    · rw [distinct_cons_of_mem hp]
      exact (ih seen).cons p
    · rw [distinct_cons_of_notMem hp]
      exact (ih _).cons_cons p

theorem fileKey_notMem_of_mem_distinct {seen : List (Location ⊕ List Component)} {ps : List Path}
    {q : Path} (h : q ∈ fs.distinct seen ps) : fs.fileKey q ∉ seen := by
  induction ps generalizing seen with
  | nil => cases h
  | cons p ps ih =>
    by_cases hp : fs.fileKey p ∈ seen
    · rw [distinct_cons_of_mem hp] at h
      exact ih h
    · rw [distinct_cons_of_notMem hp] at h
      rcases List.mem_cons.1 h with rfl | h
      · exact hp
      · exact fun hq => ih h (List.mem_cons_of_mem _ hq)

theorem pairwise_distinct (seen : List (Location ⊕ List Component)) (ps : List Path) :
    (fs.distinct seen ps).Pairwise fun p q => fs.fileKey p ≠ fs.fileKey q := by
  induction ps generalizing seen with
  | nil => exact List.Pairwise.nil
  | cons p ps ih =>
    by_cases hp : fs.fileKey p ∈ seen
    · rw [distinct_cons_of_mem hp]
      exact ih seen
    · rw [distinct_cons_of_notMem hp, List.pairwise_cons]
      refine ⟨fun q hq heq => ?_, ih _⟩
      exact fileKey_notMem_of_mem_distinct hq (heq ▸ List.mem_cons_self)

theorem exists_mem_distinct {seen : List (Location ⊕ List Component)} {ps : List Path} {p : Path}
    (hp : p ∈ ps) (hseen : fs.fileKey p ∉ seen) :
    ∃ q ∈ fs.distinct seen ps, fs.fileKey p = fs.fileKey q := by
  induction ps generalizing seen with
  | nil => cases hp
  | cons p' ps ih =>
    by_cases hp' : fs.fileKey p' ∈ seen
    · rw [distinct_cons_of_mem hp']
      rcases List.mem_cons.1 hp with rfl | hp
      · exact absurd hp' hseen
      · exact ih hp hseen
    · rw [distinct_cons_of_notMem hp']
      by_cases hkey : fs.fileKey p = fs.fileKey p'
      · exact ⟨p', List.mem_cons_self, hkey⟩
      · rcases List.mem_cons.1 hp with rfl | hp
        · exact absurd rfl hkey
        · obtain ⟨q, hq, heq⟩ := ih hp fun hmem => (List.mem_cons.1 hmem).elim hkey hseen
          exact ⟨q, List.mem_cons_of_mem _ hq, heq⟩

theorem distinct_congr {seen seen' : List (Location ⊕ List Component)}
    (h : ∀ key, key ∈ seen ↔ key ∈ seen') (ps : List Path) :
    fs.distinct seen ps = fs.distinct seen' ps := by
  induction ps generalizing seen seen' with
  | nil => rfl
  | cons p ps ih =>
    by_cases hp : fs.fileKey p ∈ seen
    · rw [distinct_cons_of_mem hp, distinct_cons_of_mem ((h _).1 hp), ih h]
    · have hcons : ∀ key, key ∈ fs.fileKey p :: seen ↔ key ∈ fs.fileKey p :: seen' := by
        intro key
        rw [List.mem_cons, List.mem_cons, h key]
      rw [distinct_cons_of_notMem hp, distinct_cons_of_notMem fun hp' => hp ((h _).2 hp'),
        ih hcons]

theorem distinct_append (seen : List (Location ⊕ List Component)) (ps qs : List Path) :
    fs.distinct seen (ps ++ qs) =
      fs.distinct seen ps ++ fs.distinct (ps.map fs.fileKey ++ seen) qs := by
  induction ps generalizing seen with
  | nil => rfl
  | cons p ps ih =>
    by_cases hp : fs.fileKey p ∈ seen
    · have hseen : ∀ key, key ∈ ps.map fs.fileKey ++ seen ↔
          key ∈ (p :: ps).map fs.fileKey ++ seen := by
        intro key
        simp only [List.map_cons, List.cons_append, List.mem_cons, List.mem_append]
        constructor
        · exact Or.inr
        · rintro (rfl | hkey)
          · exact Or.inr hp
          · exact hkey
      rw [List.cons_append, distinct_cons_of_mem hp, distinct_cons_of_mem hp, ih,
        distinct_congr hseen]
    · have hseen : ∀ key, key ∈ ps.map fs.fileKey ++ fs.fileKey p :: seen ↔
          key ∈ (p :: ps).map fs.fileKey ++ seen := by
        intro key
        simp only [List.map_cons, List.cons_append, List.mem_cons, List.mem_append]
        exact or_left_comm
      rw [List.cons_append, distinct_cons_of_notMem hp, distinct_cons_of_notMem hp, ih,
        distinct_congr hseen, List.cons_append]

/-- Every file that the targets stand for is gathered once, under the first path that leads to it,
and the paths keep their order. -/
theorem gather_keeps_firsts (fs : FileSystem) (expand : Path → List Path) (targets : List Path) :
    (fs.gather expand targets).Sublist (targets.flatMap expand) ∧
      (fs.gather expand targets).Pairwise (fun p q => ¬ fs.SameFile p q) ∧
      (∀ p ∈ targets.flatMap expand, ∃ q ∈ fs.gather expand targets, fs.SameFile p q) ∧
      ∀ before p after, targets.flatMap expand = before ++ p :: after →
        (∀ q ∈ before, ¬ fs.SameFile q p) →
        ∃ front rest, fs.gather expand targets = front ++ p :: rest ∧
          front.Sublist before ∧ rest.Sublist after := by
  unfold gather
  refine ⟨distinct_sublist [] _, ?_, ?_, ?_⟩
  · exact (pairwise_distinct [] _).imp fun hne hsame => hne (fileKey_eq_iff.2 hsame)
  · intro p hp
    obtain ⟨q, hq, hkey⟩ := exists_mem_distinct hp List.not_mem_nil
    exact ⟨q, hq, fileKey_eq_iff.1 hkey⟩
  · intro before p after hsplit hfirst
    have hunseen : fs.fileKey p ∉ before.map fs.fileKey ++ [] := by
      rw [List.append_nil, List.mem_map]
      rintro ⟨q, hq, hkey⟩
      exact hfirst q hq (fileKey_eq_iff.1 hkey)
    rw [hsplit, distinct_append, distinct_cons_of_notMem hunseen]
    exact ⟨_, _, rfl, distinct_sublist [] before, distinct_sublist _ after⟩

/-- A file that a link leads to as well, and a link that leads nowhere. -/
def aliases : FileSystem where
  top := .folder [("d", .folder [("a.cpp", .file .empty)]),
    ("e.cpp", .link (Path.ofText "d/a.cpp")),
    ("g", .folder [("gone.h", .link (Path.ofText "nowhere"))])]

def aliasTargets : List Path := ["e.cpp", "d", "d/../e.cpp", "g", "g/."].map Path.ofText

def expandAlias : Path → List Path := aliases.expand (ignoreWalk none) ⟨[], [], ["cpp", "h"]⟩

theorem gather_keeps_firsts_aliases :
    aliases.gather expandAlias aliasTargets = ["e.cpp", "g/gone.h"].map Path.ofText ∧
      (aliasTargets.flatMap expandAlias).map Path.text =
        ["e.cpp", "d/a.cpp", "d/../e.cpp", "g/gone.h", "g/./gone.h"] ∧
      ∃ q ∈ aliases.gather expandAlias aliasTargets,
        aliases.SameFile (Path.ofText "g/./gone.h") q := by
  obtain ⟨_, _, hcovers, _⟩ := gather_keeps_firsts aliases expandAlias aliasTargets
  exact ⟨by decide +kernel, by decide +kernel, hcovers _ (by decide +kernel)⟩

end Downlevel.FileSystem
