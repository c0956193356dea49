import Downlevel.Proofs.Resolution
import Downlevel.Proofs.RuleFiles
import Mathlib.Data.List.Nodup

/-!
# What a walk shows

A walk starts at a folder and is told of every entry whether to keep it. It is to
show the entries to which all on the way are kept, and each of them once. This is
all that is asked of a walk, and it is asked where no ignore rules are in force. A
walk that heeds ignore files meets it there.
-/

namespace Downlevel

/-! ### Folders -/

namespace Entry

def entries : Entry → List (String × Entry)
  | folder entries => entries
  | _ => []

/-- What a folder holds is nothing, or it starts with an entry that holds things in its turn. -/
@[elab_as_elim]
theorem entries_induction {motive : List (String × Entry) → Prop} (nil : motive [])
    (cons : ∀ name e rest, motive e.entries → motive rest → motive ((name, e) :: rest))
    (entries : List (String × Entry)) : motive entries := by
  match entries with
  | [] => exact nil
  | (name, .file content) :: rest =>
    exact cons name _ rest nil (entries_induction nil cons rest)
  | (name, .link target) :: rest =>
    exact cons name _ rest nil (entries_induction nil cons rest)
  | (name, .folder entries) :: rest =>
    exact cons name _ rest (entries_induction nil cons entries) (entries_induction nil cons rest)

theorem at?_entries (e : Entry) (name : String) (ns : Location) :
    (folder e.entries).at? (name :: ns) = e.at? (name :: ns) := by
  cases e <;> rfl

theorem at?_folder_cons (name n : String) (e : Entry) (rest : List (String × Entry))
    (ns : Location) :
    (folder ((name, e) :: rest)).at? (n :: ns) =
      if n = name then e.at? ns else (folder rest).at? (n :: ns) := by
  rw [at?, at?, List.lookup_cons]
  by_cases hn : n = name
  · rw [if_pos hn, beq_iff_eq.2 hn]
  · rw [if_neg hn, beq_eq_false_iff_ne.2 hn]

/-- In every folder the entries have different names, which are names of entries. -/
inductive WellNamed : List (String × Entry) → Prop
  | nil : WellNamed []
  | cons {name : String} {e : Entry} {rest : List (String × Entry)} (hname : IsName name)
      (hfresh : name ∉ rest.map Prod.fst) (hbelow : WellNamed e.entries)
      (hbehind : WellNamed rest) : WellNamed ((name, e) :: rest)

variable {e e' : Entry} {entries rest : List (String × Entry)} {name n : String}
  {l ns : Location}

theorem WellNamed.of_cons (h : WellNamed ((name, e) :: rest)) :
    IsName name ∧ name ∉ rest.map Prod.fst ∧ WellNamed e.entries ∧ WellNamed rest := by
  cases h with
  | cons hname hfresh hbelow hbehind => exact ⟨hname, hfresh, hbelow, hbehind⟩

/-- The names that lead to an entry are names, and the first is that of an entry of the folder. -/
theorem WellNamed.of_at? (h : WellNamed entries)
    (hat : (folder entries).at? (n :: ns) = some e') :
    (∀ name ∈ n :: ns, IsName name) ∧ n ∈ entries.map Prod.fst := by
  induction entries using entries_induction generalizing n ns with
  | nil => cases hat
  | cons name e rest below behind =>
    obtain ⟨hname, _, hbelow, hbehind⟩ := h.of_cons
    rw [at?_folder_cons] at hat
    split_ifs at hat with hn
    · subst hn
      refine ⟨List.forall_mem_cons.2 ⟨hname, ?_⟩, List.mem_cons_self⟩
      cases ns with
      | nil => simp
      | cons n' ns =>
        rw [← at?_entries] at hat
        exact (below hbelow hat).1
    · obtain ⟨hnames, hmem⟩ := behind hbehind hat
      exact ⟨hnames, List.mem_cons_of_mem _ hmem⟩

def KeptTo (keep : Location → Entry → Bool) (e : Entry) (ns : Location) : Prop :=
  ∀ front e', front ≠ [] → front <+: ns → e.at? front = some e' → keep front e' = true

variable {keep keep' : Location → Entry → Bool}

theorem keptTo_nil : e.KeptTo keep [] :=
  fun _ _ hne hfront => absurd (List.prefix_nil.1 hfront) hne

theorem keptTo_cons (hat : e.at? [n] = some e') :
    e.KeptTo keep (n :: ns) ↔
      keep [n] e' = true ∧ e'.KeptTo (fun front => keep (n :: front)) ns := by
  have hbelow : ∀ front, e.at? (n :: front) = e'.at? front := at?_append hat
  constructor
  · intro h
    refine ⟨h [n] e' (by simp) (by simp) hat, fun front e₁ _ hfront hat₁ => ?_⟩
    exact h (n :: front) e₁ (by simp) (List.cons_prefix_cons.2 ⟨rfl, hfront⟩)
      ((hbelow front).trans hat₁)
  · rintro ⟨hfirst, hrest⟩ front e₁ hne hfront hat₁
    cases front with
    | nil => exact absurd rfl hne
    | cons n' front =>
      obtain ⟨rfl, hbehind⟩ := List.cons_prefix_cons.1 hfront
      rw [hbelow] at hat₁
      cases front with
      | nil =>
        rw [at?_nil] at hat₁
        rwa [← Option.some.inj hat₁]
      | cons n₁ front => exact hrest (n₁ :: front) e₁ (by simp) hbehind hat₁

theorem keptTo_congr (hat : ∀ front, front ≠ [] → front <+: ns → e.at? front = e'.at? front)
    (hkeep : ∀ front e₁, front ≠ [] → keep front e₁ = keep' front e₁) :
    e.KeptTo keep ns ↔ e'.KeptTo keep' ns := by
  constructor
  · intro h front e₁ hne hfront hat₁
    rw [← hkeep front e₁ hne]
    exact h front e₁ hne hfront ((hat front hne hfront).trans hat₁)
  · intro h front e₁ hne hfront hat₁
    rw [hkeep front e₁ hne]
    exact h front e₁ hne hfront ((hat front hne hfront).symm.trans hat₁)

mutual

def names : Entry → List String
  | folder entries => namesIn entries
  | _ => []

def namesIn : List (String × Entry) → List String
  | [] => []
  | (name, e) :: rest => name :: (e.names ++ namesIn rest)

end

theorem cons_names_subset_namesIn (h : (name, e) ∈ entries) :
    name :: e.names ⊆ namesIn entries := by
  induction entries with
  | nil => cases h
  | cons entry rest ih =>
    rw [namesIn, ← List.cons_append]
    rcases List.mem_cons.1 h with rfl | h
    · exact List.subset_append_left _ _
    · exact List.Subset.trans (ih h) (List.subset_append_right _ _)

theorem lookup_eq_none_of_notMem_names (h : e.at? ns = some (folder entries))
    (hname : name ∉ e.names) : entries.lookup name = none := by
  induction ns generalizing e with
  | nil =>
    rw [at?_nil] at h
    rw [Option.some.inj h, names] at hname
    rw [List.lookup_eq_none_iff]
    intro entry hentry
    rw [bne_iff_ne]
    rintro rfl
    exact hname (cons_names_subset_namesIn hentry List.mem_cons_self)
  | cons n ns ih =>
    obtain ⟨es, e₁, rfl, hlookup, hbelow⟩ := exists_lookup_of_at? h
    obtain ⟨front, behind, rfl, _⟩ := List.lookup_eq_some_iff.1 hlookup
    refine ih hbelow fun hmem => hname ?_
    rw [names]
    exact cons_names_subset_namesIn (by simp) (List.mem_cons_of_mem n hmem)

end Entry

/-! ### Walks -/

/-- The entry that the names lead to from the path `root`, as a walk shows it. Names for which
`isText` fails stand for such as are not text. -/
def Visit.below (isText : String → Bool) (root : Path) (ns : Location) (e : Entry) : Visit :=
  ⟨root.joinAll ns, e.isFolder, ns.getLast?.filter isText⟩

/-- The walk is to show `v`: an entry below the folder that `root` leads to, which can be reached
by way of entries that are kept, and is kept itself. -/
def Visit.IsDue (v : Visit) (isText : String → Bool) (keep : Visit → Bool) (root : Path)
    (folder : Entry) : Prop :=
  ∃ ns e, ns ≠ [] ∧ folder.at? ns = some e ∧ v = below isText root ns e ∧
    folder.KeptTo (fun front e => keep (below isText root front e)) ns

/-- From the path `root`, which leads to a folder, a walk shows that path and all that is due
below the folder. It shows nothing twice. -/
structure Walker.Enumerates (walk : Walker) (isText : String → Bool) (fs : FileSystem)
    (root : Path) (folder : Entry) : Prop where
  nodup : ∀ keep, ((walk fs root keep).filterMap Except.toOption).Nodup
  mem_iff : ∀ keep v, keep (fs.rootVisit root) = true →
    (.ok v ∈ walk fs root keep ↔ v = fs.rootVisit root ∨ v.IsDue isText keep root folder)

namespace Visit

variable {isText : String → Bool} {keep : Visit → Bool} {root : Path} {name : String} {v : Visit}
  {e : Entry} {rest : List (String × Entry)} {ns : Location}

theorem below_cons (hne : ns ≠ []) :
    below isText root (name :: ns) e = below isText (root.join name) ns e := by
  cases ns with
  | nil => exact absurd rfl hne
  | cons n ns => rfl

theorem not_isDue_nil : ¬ v.IsDue isText keep root (.folder []) := by
  rintro ⟨ns, e, hne, hat, _⟩
  cases ns with
  | nil => exact hne rfl
  | cons n ns => cases hat

/-- What is due inside the first entry of a folder. -/
theorem isDue_inside_iff :
    v.IsDue isText keep (root.join name) (.folder e.entries) ↔
      ∃ ns e', ns ≠ [] ∧ e.at? ns = some e' ∧ v = below isText root (name :: ns) e' ∧
        e.KeptTo (fun front e => keep (below isText root (name :: front) e)) ns := by
  have hat : ∀ front, front ≠ [] → (Entry.folder e.entries).at? front = e.at? front := by
    intro front hne
    cases front with
    | nil => exact absurd rfl hne
    | cons n front => exact e.at?_entries n front
  have hkept : ∀ ns, (Entry.folder e.entries).KeptTo
      (fun front e => keep (below isText (root.join name) front e)) ns ↔
        e.KeptTo (fun front e => keep (below isText root (name :: front) e)) ns := fun ns =>
    Entry.keptTo_congr (fun front hne _ => hat front hne)
      fun front e hne => by rw [below_cons hne]
  constructor
  · rintro ⟨ns, e', hne, hat', rfl, hkeep⟩
    exact ⟨ns, e', hne, (hat ns hne).symm.trans hat', (below_cons hne).symm, (hkept ns).1 hkeep⟩
  · rintro ⟨ns, e', hne, hat', rfl, hkeep⟩
    exact ⟨ns, e', hne, (hat ns hne).trans hat', below_cons hne, (hkept ns).2 hkeep⟩

/-- What is due in a folder with a first entry: that entry and all inside it, if it is kept, and
all that is due behind it. -/
theorem isDue_cons_iff (hfresh : name ∉ rest.map Prod.fst) :
    v.IsDue isText keep root (.folder ((name, e) :: rest)) ↔
      (keep (below isText root [name] e) = true ∧
        (v = below isText root [name] e ∨
          v.IsDue isText keep (root.join name) (.folder e.entries))) ∨
      v.IsDue isText keep root (.folder rest) := by
  have hfirst : (Entry.folder ((name, e) :: rest)).at? [name] = some e := by
    rw [Entry.at?_folder_cons, if_pos rfl, Entry.at?_nil]
  have hinside : ∀ ns, (Entry.folder ((name, e) :: rest)).at? (name :: ns) = e.at? ns :=
    fun ns => Entry.at?_append hfirst ns
  have hother : ∀ n ns, n ≠ name → (Entry.folder ((name, e) :: rest)).at? (n :: ns) =
      (Entry.folder rest).at? (n :: ns) := fun n ns hn => by
    rw [Entry.at?_folder_cons, if_neg hn]
  have hkept : ∀ n ns, n ≠ name → ((Entry.folder ((name, e) :: rest)).KeptTo
      (fun front e => keep (below isText root front e)) (n :: ns) ↔
        (Entry.folder rest).KeptTo (fun front e => keep (below isText root front e))
          (n :: ns)) := by
    intro n ns hn
    refine Entry.keptTo_congr (fun front hne hfront => ?_) fun _ _ _ => rfl
    cases front with
    | nil => exact absurd rfl hne
    | cons n' front =>
      obtain ⟨rfl, _⟩ := List.cons_prefix_cons.1 hfront
      exact hother n' front hn
  rw [isDue_inside_iff]
  constructor
  · rintro ⟨ns, e', hne, hat, rfl, hkeep⟩
    cases ns with
    | nil => exact absurd rfl hne
    | cons n ns =>
      by_cases hn : n = name
      · subst hn
        rw [hinside] at hat
        obtain ⟨hkeep, hkeep'⟩ := (Entry.keptTo_cons hfirst).1 hkeep
        refine Or.inl ⟨hkeep, ?_⟩
        rcases eq_or_ne ns [] with rfl | hne'
        · rw [Entry.at?_nil] at hat
          obtain rfl := Option.some.inj hat
          exact Or.inl rfl
        · exact Or.inr ⟨ns, e', hne', hat, rfl, hkeep'⟩
      · exact Or.inr ⟨n :: ns, e', hne, (hother n ns hn).symm.trans hat, rfl,
          (hkept n ns hn).1 hkeep⟩
  · rintro (⟨hkeep, rfl | ⟨ns, e', _, hat, rfl, hkeep'⟩⟩ | ⟨ns, e', hne, hat, rfl, hkeep⟩)
    · exact ⟨[name], e, by simp, hfirst, rfl,
        (Entry.keptTo_cons hfirst).2 ⟨hkeep, Entry.keptTo_nil⟩⟩
    · exact ⟨name :: ns, e', by simp, (hinside ns).trans hat, rfl,
        (Entry.keptTo_cons hfirst).2 ⟨hkeep, hkeep'⟩⟩
    · cases ns with
      | nil => exact absurd rfl hne
      | cons n ns =>
        have hn : n ≠ name := by
          rintro rfl
          rw [Entry.at?, List.lookup_eq_none_iff.2] at hat
          · cases hat
          · intro entry hentry
            rw [bne_iff_ne]
            rintro rfl
            exact hfresh (List.mem_map_of_mem hentry)
        exact ⟨n :: ns, e', hne, (hother n ns hn).trans hat, rfl, (hkept n ns hn).2 hkeep⟩

theorem IsDue.exists_names {entries : List (String × Entry)}
    (h : v.IsDue isText keep root (.folder entries)) (hnamed : Entry.WellNamed entries) :
    ∃ n ns, v.path = root.joinAll (n :: ns) ∧ (∀ name ∈ n :: ns, IsName name) ∧
      n ∈ entries.map Prod.fst := by
  obtain ⟨ns, e, hne, hat, rfl, _⟩ := h
  cases ns with
  | nil => exact absurd rfl hne
  | cons n ns => exact ⟨n, ns, rfl, hnamed.of_at? hat⟩

end Visit

/-! ### Ignore rules -/

namespace IgnoreScope

/-- The folder has no plain ignore rules and is no repository. -/
structure IsSilent (s : IgnoreScope) : Prop where
  plain : s.plain = []
  repository : s.isRepository = false

theorem judge_eq_none {scopes : List IgnoreScope} (h : ∀ s ∈ scopes, s.IsSilent)
    (own : Option Verdict) (l : Location) (isFolder : Bool) :
    judge own scopes l isFolder = none := by
  have hinside : scopes.any (·.isRepository) = false := by
    rw [List.any_eq_false]
    intro s hs
    simp [(h s hs).repository]
  have hplain : scopes.findSome?
      (fun s => IgnoreRule.judge s.plain (l.drop s.depth) isFolder) = none := by
    rw [List.findSome?_eq_none_iff]
    intro s hs
    rw [(h s hs).plain]
    rfl
  unfold judge
  simp [hinside, hplain]

end IgnoreScope

namespace FileSystem

open Entry (WellNamed)

variable {fs : FileSystem}

/-- No ignore rules reach what lies below the folder at `l`: there are none in it, above it or below
it, and none of these folders is a repository. -/
structure Unruled (fs : FileSystem) (l : Location) : Prop where
  above : ∀ n, (fs.ignoreScope (l.take n)).IsSilent
  below : ∀ ns, (fs.ignoreScope (l ++ ns)).IsSilent

/-- Where there are no ignore files and no repositories, no rules reach anything. -/
theorem unruled_of_lacks (h : ∀ name ∈ [".ignore", ".git", ".jj"], fs.Lacks name)
    (l : Location) : fs.Unruled l := by
  have hfollow : ∀ name ∈ [".ignore", ".git", ".jj"], ∀ l c,
      fs.follow linkLimit l [name] ≠ .ok c := by
    intro name hname l
    refine follow_of_lacks (h name hname) ?_ ?_ linkLimit l []
    · revert name
      decide
    · revert name
      decide
  have hsilent : ∀ l, (fs.ignoreScope l).IsSilent := by
    intro l
    refine ⟨?_, ?_⟩
    · change fs.rulesAt l [".ignore"] = []
      rw [rulesAt, content?]
      cases hpath : fs.follow linkLimit l [".ignore"] with
      | error f => rfl
      | ok c => exact absurd hpath (hfollow ".ignore" (by simp) l c)
    · change [".git", ".jj"].any (fun name => (fs.follow linkLimit l [name]).isOk) = false
      rw [List.any_eq_false]
      intro name hname hok
      cases hpath : fs.follow linkLimit l [name] with
      | error f =>
        rw [hpath] at hok
        cases hok
      | ok c => exact hfollow name (List.mem_cons_of_mem ".ignore" hname) l c hpath
  exact ⟨fun n => hsilent (l.take n), fun ns => hsilent (l ++ ns)⟩

theorem lacks_of_notMem_names {name : String} (h : name ∉ fs.top.names) : fs.Lacks name :=
  fun _ _ hat => Entry.lookup_eq_none_of_notMem_names hat h

section Walk

variable {own : List IgnoreRule} {keep : Visit → Bool} {scopes : List IgnoreScope}
  {l : Location} {path : Path} {entries : List (String × Entry)} {v : Visit}

theorem walk_eq_walkAll (e : Entry) :
    fs.walk own keep scopes l path e =
      fs.walkAll own keep (fs.ignoreScope l :: scopes) l path e.entries := by
  cases e <;> simp [walk, walkAll, Entry.entries]

/-- A walk that comes to `l` with these scopes meets no rules, there or below. -/
structure Quiet (fs : FileSystem) (scopes : List IgnoreScope) (l : Location) : Prop where
  silent : ∀ s ∈ scopes, s.IsSilent
  below : ∀ ns, (fs.ignoreScope (l ++ ns)).IsSilent

theorem Quiet.inside (h : fs.Quiet scopes l) (name : String) :
    fs.Quiet (fs.ignoreScope (l ++ [name]) :: scopes) (l ++ [name]) := by
  refine ⟨List.forall_mem_cons.2 ⟨h.below [name], h.silent⟩, fun ns => ?_⟩
  rw [List.append_assoc]
  exact h.below (name :: ns)

theorem Quiet.walkAll_cons (h : fs.Quiet scopes l) (name : String) (e : Entry)
    (rest : List (String × Entry)) :
    fs.walkAll own keep scopes l path ((name, e) :: rest) =
      if keep ⟨path.join name, e.isFolder, some name⟩ = false then
        fs.walkAll own keep scopes l path rest
      else
        ⟨path.join name, e.isFolder, some name⟩ ::
          (fs.walkAll own keep (fs.ignoreScope (l ++ [name]) :: scopes) (l ++ [name])
            (path.join name) e.entries ++ fs.walkAll own keep scopes l path rest) := by
  rw [walkAll, IgnoreScope.judge_eq_none h.silent]
  simp only [reduceCtorEq, false_or, walk_eq_walkAll, List.cons_append]

/-- Without rules a walk shows what is due. -/
theorem Quiet.mem_walkAll_iff (h : fs.Quiet scopes l) (hnamed : WellNamed entries) :
    v ∈ fs.walkAll own keep scopes l path entries ↔
      v.IsDue (fun _ => true) keep path (.folder entries) := by
  induction entries using Entry.entries_induction generalizing scopes l path with
  | nil =>
    rw [walkAll]
    exact iff_of_false List.not_mem_nil Visit.not_isDue_nil
  | cons name e rest below behind =>
    obtain ⟨_, hfresh, hbelow, hbehind⟩ := hnamed.of_cons
    have hvisit : Visit.below (fun _ => true) path [name] e =
        ⟨path.join name, e.isFolder, some name⟩ := rfl
    rw [h.walkAll_cons, Visit.isDue_cons_iff hfresh, hvisit]
    split_ifs with hkeep
    · rw [behind h hbehind, hkeep]
      simp
    · rw [List.mem_cons, List.mem_append, below (h.inside name) hbelow, behind h hbehind]
      simp only [Bool.not_eq_false] at hkeep
      simp [hkeep, or_assoc]

/-- A walk shows nothing twice. -/
theorem Quiet.nodup_walkAll (h : fs.Quiet scopes l) (hnamed : WellNamed entries) :
    ((fs.walkAll own keep scopes l path entries).map Visit.path).Nodup := by
  induction entries using Entry.entries_induction generalizing scopes l path with
  | nil =>
    rw [walkAll]
    exact List.nodup_nil
  | cons name e rest below behind =>
    obtain ⟨hname, hfresh, hbelow, hbehind⟩ := hnamed.of_cons
    rw [h.walkAll_cons]
    split_ifs
    · exact behind h hbehind
    · have hinside : ∀ p ∈ (fs.walkAll own keep (fs.ignoreScope (l ++ [name]) :: scopes)
          (l ++ [name]) (path.join name) e.entries).map Visit.path,
          ∃ n ns, p = path.joinAll (name :: n :: ns) ∧ ∀ m ∈ name :: n :: ns, IsName m := by
        intro p hp
        obtain ⟨v, hv, rfl⟩ := List.mem_map.1 hp
        obtain ⟨n, ns, hpath, hnames, _⟩ :=
          (((h.inside name).mem_walkAll_iff hbelow).1 hv).exists_names hbelow
        exact ⟨n, ns, hpath, List.forall_mem_cons.2 ⟨hname, hnames⟩⟩
      have hrest : ∀ p ∈ (fs.walkAll own keep scopes l path rest).map Visit.path,
          ∃ n ns, p = path.joinAll (n :: ns) ∧ (∀ m ∈ n :: ns, IsName m) ∧ n ≠ name := by
        intro p hp
        obtain ⟨v, hv, rfl⟩ := List.mem_map.1 hp
        obtain ⟨n, ns, hpath, hnames, hn⟩ :=
          ((h.mem_walkAll_iff hbehind).1 hv).exists_names hbehind
        exact ⟨n, ns, hpath, hnames, fun hne => hfresh (hne ▸ hn)⟩
      rw [List.map_cons, List.map_append, List.nodup_cons, List.nodup_append]
      -- What lies inside the entry is further down than it, and what lies behind parts from it.
      refine ⟨?_, below (h.inside name) hbelow, behind h hbehind, ?_⟩
      · have hfirst : ∀ m ∈ [name], IsName m := by simpa using hname
        rw [List.mem_append]
        rintro (hmem | hmem)
        · obtain ⟨n, ns, heq, hnames⟩ := hinside _ hmem
          have hsame : (path.joinAll [name]).components = _ := congrArg Path.components heq
          cases Path.joinAll_inj hfirst hnames hsame
        · obtain ⟨n, ns, heq, hnames, hn⟩ := hrest _ hmem
          have hsame : (path.joinAll [name]).components = _ := congrArg Path.components heq
          cases Path.joinAll_inj hfirst hnames hsame
          exact hn rfl
      · rintro p hp _ hp' rfl
        obtain ⟨n, ns, heq, hnames⟩ := hinside p hp
        obtain ⟨n', ns', heq', hnames', hn'⟩ := hrest p hp'
        cases Path.joinAll_inj hnames hnames' (congrArg Path.components (heq.symm.trans heq'))
        exact hn' rfl

theorem Unruled.quiet (h : fs.Unruled l) :
    fs.Quiet (fs.ignoreScope l :: fs.scopesAbove l) l := by
  refine ⟨List.forall_mem_cons.2 ⟨by simpa using h.below [], fun s hs => ?_⟩, h.below⟩
  rw [scopesAbove, List.mem_reverse, List.mem_map] at hs
  obtain ⟨n, _, rfl⟩ := hs
  exact h.above n

end Walk

end FileSystem

/-- Where no ignore rules are in force, the walk that heeds them shows all that it is to show. -/
theorem ignoreWalk_enumerates (ownRules : Option Path) {fs : FileSystem} {root : Path}
    {l : Location} {entries : List (String × Entry)} (hdash : root.isDash = false)
    (hroot : fs.resolve root = .ok l) (hfolder : fs.at? l = some (.folder entries))
    (hnamed : Entry.WellNamed entries) (hrules : fs.Unruled l) :
    (ignoreWalk ownRules).Enumerates (fun _ => true) fs root (.folder entries) := by
  have hwalk : ∀ keep, ∃ own, ignoreWalk ownRules fs root keep = (fs.rootVisit root ::
      fs.walkAll own keep (fs.ignoreScope l :: fs.scopesAbove l) l root entries).map .ok := by
    intro keep
    simp only [ignoreWalk, hdash, hroot, hfolder, Option.elim_some, FileSystem.walk]
    exact ⟨_, rfl⟩
  refine ⟨fun keep => ?_, fun keep v _ => ?_⟩
  · obtain ⟨own, hwalk⟩ := hwalk keep
    have hshown : (ignoreWalk ownRules fs root keep).filterMap Except.toOption =
        fs.rootVisit root ::
          fs.walkAll own keep (fs.ignoreScope l :: fs.scopesAbove l) l root entries := by
      rw [hwalk, List.filterMap_map]
      exact List.filterMap_some
    rw [hshown]
    refine List.Nodup.of_map Visit.path (List.nodup_cons.2 ⟨fun hmem => ?_, ?_⟩)
    · obtain ⟨v, hv, hpath⟩ := List.mem_map.1 hmem
      obtain ⟨n, ns, hpath', hnames, _⟩ :=
        ((hrules.quiet.mem_walkAll_iff hnamed).1 hv).exists_names hnamed
      have hsame : (root.joinAll []).components = (root.joinAll (n :: ns)).components :=
        congrArg Path.components (hpath.symm.trans hpath')
      cases Path.joinAll_inj (by simp) hnames hsame
    · exact hrules.quiet.nodup_walkAll hnamed
  · obtain ⟨own, hwalk⟩ := hwalk keep
    rw [hwalk, List.mem_map_of_injective fun _ _ => Except.ok.inj, List.mem_cons,
      hrules.quiet.mem_walkAll_iff hnamed]

end Downlevel
