import Downlevel.Ignore.Scope
import Downlevel.Proofs.NearestSettings

/-!
# Spellings of a path

The search for settings takes components off a path as it is spelled. In a file
system without links, each front of a path leads to a location that can be told from
its components. So the folders that are searched can be told as well: first those
below the last mark for a folder in the path, as for the path from the top, and then
those that the rest of the spelling happens to go through.
-/

namespace Downlevel

/-! ### Links -/

namespace Entry

mutual

def links : Entry → List Path
  | file _ => []
  | folder entries => linksIn entries
  | link target => [target]

def linksIn : List (String × Entry) → List Path
  | [] => []
  | (_, e) :: rest => e.links ++ linksIn rest

end

theorem links_of_lookup {entries : List (String × Entry)} {name : String} {e : Entry}
    (h : entries.lookup name = some e) : e.links ⊆ linksIn entries := by
  induction entries with
  | nil => cases h
  | cons entry rest ih =>
    obtain ⟨n, e'⟩ := entry
    rw [List.lookup_cons] at h
    rw [linksIn]
    cases hname : name == n with
    | true =>
      rw [hname] at h
      rw [Option.some.inj h]
      exact List.subset_append_left _ _
    | false =>
      rw [hname] at h
      exact List.subset_append_of_subset_right _ (ih h)

theorem mem_links_of_at? {e : Entry} {l : Location} {target : Path}
    (h : e.at? l = some (link target)) : target ∈ e.links := by
  induction l generalizing e with
  | nil =>
    rw [at?_nil] at h
    rw [Option.some.inj h, links]
    exact List.mem_singleton_self target
  | cons name rest ih =>
    obtain ⟨entries, e₁, rfl, hlookup, hbelow⟩ := exists_lookup_of_at? h
    exact links_of_lookup hlookup (ih hbelow)

end Entry

/-! ### Components and locations -/

namespace Location

def step (l : Location) : Component → Location
  | .top => []
  | .here => l
  | .up => l.dropLast
  | .name name => l ++ [name]

def along (l : Location) (cs : List Component) : Location := cs.foldl step l

theorem along_append (l : Location) (as bs : List Component) :
    along l (as ++ bs) = along (along l as) bs :=
  List.foldl_append

theorem along_names (l : Location) (names : List String) :
    along l (names.map .name) = l ++ names := by
  induction names generalizing l with
  | nil => exact (List.append_nil l).symm
  | cons name names ih =>
    change along (l ++ [name]) (names.map .name) = _
    rw [ih, List.append_assoc]
    rfl

theorem isName_along {l : Location} {cs : List Component} (hl : ∀ name ∈ l, IsName name)
    (hcs : ∀ name, .name name ∈ cs → IsName name) : ∀ name ∈ along l cs, IsName name := by
  induction cs generalizing l with
  | nil => exact hl
  | cons c cs ih =>
    refine @ih (step l c) ?_ fun name hname => hcs name (List.mem_cons_of_mem _ hname)
    intro name hname
    cases c with
    | top => cases hname
    | here => exact hl name hname
    | up => exact hl name (List.mem_of_mem_dropLast hname)
    | name n =>
      rcases List.mem_append.1 hname with hname | hname
      · exact hl name hname
      · rw [List.mem_singleton.1 hname]
        exact hcs n List.mem_cons_self

end Location

theorem Path.isName_of_mem_components {p : Path} {name : String}
    (h : .name name ∈ p.components) : IsName name := by
  have hmem : .name name ∈ p.pieces.filterMap Component.ofPiece? := by
    rw [components_eq] at h
    split_ifs at h <;> simpa using h
  obtain ⟨piece, _, hpiece⟩ := List.mem_filterMap.1 hmem
  exact isName_of_ofPiece? hpiece

namespace FileSystem

variable {fs : FileSystem} {onLink : Location → List String → Except SystemFault Location}
  {here l : Location} {piece : String} {rest pieces : List String}

/-- There are no links, and names lead to the current folder. -/
structure Plain (fs : FileSystem) : Prop where
  links : fs.top.links = []
  current : ∀ name ∈ fs.current, IsName name

def HasFolder (fs : FileSystem) (l : Location) : Prop :=
  ∃ entries, fs.at? l = some (.folder entries)

theorem Plain.at?_ne_link (hfs : fs.Plain) (l : Location) (target : Path) :
    fs.at? l ≠ some (.link target) := by
  intro hat
  have hmem := Entry.mem_links_of_at? hat
  rw [hfs.links] at hmem
  cases hmem

theorem HasFolder.above {l' : Location} (h : fs.HasFolder l) (hbegins : l' <+: l) :
    fs.HasFolder l' := by
  obtain ⟨behind, rfl⟩ := hbegins
  obtain ⟨entries, hat⟩ := h
  cases behind with
  | nil =>
    rw [List.append_nil] at hat
    exact ⟨entries, hat⟩
  | cons name ns => exact Entry.exists_folder_of_at? hat

/-! ### Following pieces -/

/-- One step on the way: it is made from a folder, and to where the piece leads. -/
theorem Plain.of_followTo_cons (hfs : fs.Plain)
    (h : fs.followTo onLink here (piece :: rest) = .ok l) :
    fs.HasFolder here ∧
      fs.followTo onLink ((Component.ofPiece? piece).elim here (Location.step here)) rest =
        .ok l := by
  rw [followTo] at h
  cases hat : fs.at? here with
  | none =>
    rw [hat] at h
    cases h
  | some e =>
    rw [hat] at h
    cases e with
    | file content => cases h
    | link target => cases h
    | folder entries =>
      refine ⟨⟨entries, hat⟩, ?_⟩
      unfold Component.ofPiece?
      dsimp only at h
      split_ifs at h ⊢
      · exact h
      · exact h
      · have hnext := at?_concat hat piece
        cases hlookup : entries.lookup piece with
        | none =>
          rw [hlookup] at h
          cases h
        | some e =>
          rw [hlookup] at h hnext
          cases e with
          | file content => exact h
          | folder entries => exact h
          | link target => exact absurd hnext (hfs.at?_ne_link _ target)

theorem Plain.followTo_cons (hfs : fs.Plain) (hfolder : fs.HasFolder here)
    (hnext : ∀ name, Component.ofPiece? piece = some (.name name) →
      ∃ e, fs.at? (here ++ [name]) = some e) :
    fs.followTo onLink here (piece :: rest) =
      fs.followTo onLink ((Component.ofPiece? piece).elim here (Location.step here)) rest := by
  obtain ⟨entries, hat⟩ := hfolder
  rw [followTo, hat]
  unfold Component.ofPiece? at hnext ⊢
  dsimp only
  split_ifs at hnext ⊢
  · rfl
  · rfl
  · obtain ⟨e, he⟩ := hnext piece rfl
    have hlookup := at?_concat hat piece
    rw [he] at hlookup
    rw [← hlookup]
    cases e with
    | file content => rfl
    | folder entries => rfl
    | link target => exact absurd he (hfs.at?_ne_link _ target)

/-- Without links, pieces lead where their components say, and through folders only. -/
theorem Plain.of_followTo (hfs : fs.Plain) (h : fs.followTo onLink here pieces = .ok l) :
    l = Location.along here (pieces.filterMap Component.ofPiece?) ∧
      (pieces ≠ [] → fs.HasFolder here) ∧
      ∀ front, front <+: pieces.filterMap Component.ofPiece? →
        front ≠ pieces.filterMap Component.ofPiece? → fs.HasFolder (Location.along here front) := by
  induction pieces generalizing here with
  | nil =>
    refine ⟨(Except.ok.inj h).symm, fun hne => absurd rfl hne, ?_⟩
    intro front hfront hne
    exact absurd (List.prefix_nil.1 hfront) hne
  | cons piece rest ih =>
    obtain ⟨hfolder, hrest⟩ := hfs.of_followTo_cons h
    obtain ⟨hl, _, hfronts⟩ := ih hrest
    cases hpiece : Component.ofPiece? piece with
    | none =>
      rw [hpiece] at hl hfronts
      rw [List.filterMap_cons_none hpiece]
      exact ⟨hl, fun _ => hfolder, hfronts⟩
    | some c =>
      rw [hpiece] at hl hfronts
      rw [List.filterMap_cons_some hpiece]
      refine ⟨hl, fun _ => hfolder, ?_⟩
      intro front hfront hne
      cases front with
      | nil => exact hfolder
      | cons c' front =>
        obtain ⟨rfl, hbehind⟩ := List.cons_prefix_cons.1 hfront
        exact hfronts front hbehind fun heq => hne (by rw [heq])

theorem Plain.followTo_append (hfs : fs.Plain)
    (hfolders : ∀ front, front <+: pieces.filterMap Component.ofPiece? →
      fs.HasFolder (Location.along here front)) :
    fs.followTo onLink here (pieces ++ rest) =
      fs.followTo onLink (Location.along here (pieces.filterMap Component.ofPiece?)) rest := by
  induction pieces generalizing here with
  | nil => rfl
  | cons piece pieces ih =>
    have hfolder : fs.HasFolder here := hfolders [] List.nil_prefix
    cases hpiece : Component.ofPiece? piece with
    | none =>
      rw [List.filterMap_cons_none hpiece] at hfolders ⊢
      rw [List.cons_append, hfs.followTo_cons hfolder (by simp [hpiece]), hpiece]
      exact ih hfolders
    | some c =>
      rw [List.filterMap_cons_some hpiece] at hfolders ⊢
      have hnext : ∀ front, front <+: pieces.filterMap Component.ofPiece? →
          fs.HasFolder (Location.along (Location.step here c) front) :=
        fun front hfront => hfolders (c :: front) (List.cons_prefix_cons.2 ⟨rfl, hfront⟩)
      rw [List.cons_append, hfs.followTo_cons hfolder, hpiece]
      · exact ih hnext
      · intro name hname
        rw [hpiece] at hname
        rw [Option.some.inj hname] at hnext
        obtain ⟨entries, hat⟩ := hnext [] List.nil_prefix
        exact ⟨_, hat⟩

theorem Plain.followTo_names (hfs : fs.Plain) (hl : ∀ name ∈ l, IsName name)
    (hfolder : fs.HasFolder l) (rest : List String) :
    fs.followTo onLink [] (l ++ rest) = fs.followTo onLink l rest := by
  rw [hfs.followTo_append, filterMap_ofPiece?_names hl, Location.along_names, List.nil_append]
  intro front hfront
  rw [filterMap_ofPiece?_names hl] at hfront
  obtain ⟨ns, hns, rfl⟩ := List.prefix_map_iff.1 hfront
  rw [Location.along_names]
  exact hfolder.above hns

/-! ### Paths -/

theorem resolve_of_not_isEmpty {p : Path} (h : p.isEmpty = false) :
    fs.resolve p = fs.followTo (fs.follow (linkLimit - 1)) (fs.startOf p) p.pieces := by
  rw [resolve, h]
  rfl

theorem along_components (p : Path) :
    Location.along fs.current p.components =
      Location.along (fs.startOf p) (p.pieces.filterMap Component.ofPiece?) := by
  rw [Path.components_eq, startOf]
  split_ifs <;> rfl

/-- Every shorter front of a path that leads somewhere leads to a folder. -/
theorem Plain.of_resolve (hfs : fs.Plain) {p : Path} (h : fs.resolve p = .ok l) :
    l = Location.along fs.current p.components ∧
      ∀ front ∈ Path.fronts p.components, front ≠ p.components →
        fs.HasFolder (Location.along fs.current front) := by
  have hempty : p.isEmpty = false := by
    cases hempty : p.isEmpty with
    | false => rfl
    | true =>
      rw [resolve, hempty] at h
      cases h
  rw [resolve_of_not_isEmpty hempty] at h
  obtain ⟨hl, hstart, hfronts⟩ := hfs.of_followTo h
  refine ⟨hl.trans (along_components p).symm, ?_⟩
  intro front hfront hne
  obtain ⟨hbegins, htop⟩ := Path.mem_fronts_iff.1 hfront
  rw [Path.components_eq] at hbegins hne htop
  unfold startOf at hstart hfronts
  split_ifs at hstart hfronts hbegins hne htop with hrooted hdot
  · obtain ⟨c, behind, rfl⟩ := List.exists_cons_of_ne_nil (htop rfl)
    obtain ⟨rfl, hbehind⟩ := List.cons_prefix_cons.1 hbegins
    exact hfronts behind hbehind fun heq => hne (by rw [heq]; rfl)
  · cases front with
    | nil =>
      apply hstart
      rintro hnil
      rw [hnil] at hdot
      cases hdot
    | cons c behind =>
      obtain ⟨rfl, hbehind⟩ := List.cons_prefix_cons.1 hbegins
      exact hfronts behind hbehind fun heq => hne (by rw [heq]; rfl)
  · exact hfronts front hbegins hne

theorem hasFolder_of_steps {q : Path} (hfolders : ∀ front ∈ Path.fronts q.components,
      fs.HasFolder (Location.along fs.current front)) {steps : List Component}
    (hsteps : steps <+: q.pieces.filterMap Component.ofPiece?) :
    fs.HasFolder (Location.along (fs.startOf q) steps) := by
  rw [Path.components_eq] at hfolders
  unfold startOf
  split_ifs at hfolders ⊢ with hrooted hdot
  · apply hfolders (.top :: steps)
    exact Path.mem_fronts_iff.2 ⟨List.cons_prefix_cons.2 ⟨rfl, hsteps⟩, by simp⟩
  · apply hfolders (.here :: steps)
    exact Path.mem_fronts_iff.2 ⟨List.cons_prefix_cons.2 ⟨rfl, hsteps⟩, by simp⟩
  · apply hfolders steps
    refine Path.mem_fronts_iff.2 ⟨hsteps, fun htop => ?_⟩
    -- No piece stands for the top.
    have hmem := List.mem_of_mem_head? htop
    obtain ⟨piece, _, hpiece⟩ := List.mem_filterMap.1 hmem
    exact absurd hpiece (Component.ofPiece?_ne_top piece)

/-- A name is looked for in the folder that the path leads to, however it is spelled. -/
theorem Plain.read_join (hfs : fs.Plain) {q : Path} {name : String} (hname : IsName name)
    (hfolders : ∀ front ∈ Path.fronts q.components,
      fs.HasFolder (Location.along fs.current front)) :
    fs.read (q.join name) =
      fs.read (Location.path (Location.along fs.current q.components ++ [name])) := by
  obtain ⟨pieces, hpieces⟩ := q.exists_pieces_join name
  have hsteps : pieces.filterMap Component.ofPiece? = q.pieces.filterMap Component.ofPiece? := by
    have hjoin := q.filterMap_pieces_join hname
    rw [hpieces, List.filterMap_append, List.filterMap_cons_some hname] at hjoin
    exact List.append_cancel_right hjoin
  have hblank : name ≠ "" := by
    rintro rfl
    cases hname
  have hempty : (q.join name).isEmpty = false := by
    rw [Path.isEmpty, hpieces]
    cases pieces <;> simp [hblank]
  have hfolder : fs.HasFolder (Location.along fs.current q.components) := by
    apply hfolders
    rw [Path.fronts_eq_cons]
    exact List.mem_cons_self
  have hnames : ∀ n ∈ Location.along fs.current q.components, IsName n :=
    Location.isName_along hfs.current fun _ hn => Path.isName_of_mem_components hn
  have hresolve : fs.resolve (q.join name) =
      fs.resolve (Location.path (Location.along fs.current q.components ++ [name])) := by
    rw [resolve_of_not_isEmpty hempty, resolve_of_not_isEmpty rfl, hpieces]
    change fs.followTo _ (fs.startOf (q.join name)) _ = fs.followTo _ [] (_ ++ [name])
    rw [hfs.followTo_names hnames hfolder, startOf, Path.rooted_join, ← startOf,
      hfs.followTo_append fun front hfront => hasFolder_of_steps hfolders (hsteps ▸ hfront),
      hsteps, ← along_components]
  rw [read, read, hresolve]

/-! ### The search -/

variable {decode : String → Option Settings}

def nearestOf (fs : FileSystem) (decode : String → Option Settings) (folders : List Location) :
    Settings :=
  (folders.findSome? (fs.settingsAt? decode)).getD {}

theorem nearestOf_append {near : List Location} {folder : Location} {s : Settings}
    (hmem : folder ∈ near) (hs : fs.settingsAt? decode folder = some s) (far : List Location) :
    fs.nearestOf decode (near ++ far) = fs.nearestOf decode near := by
  have hfound : (near.findSome? (fs.settingsAt? decode)).isSome = true :=
    List.findSome?_isSome_iff.2 ⟨folder, hmem, by rw [hs]; rfl⟩
  obtain ⟨s', hs'⟩ := Option.isSome_iff_exists.1 hfound
  rw [nearestOf, nearestOf, List.findSome?_append, hs']
  rfl

theorem findSome?_settingsIn? {qs : List Path}
    (h : ∀ q ∈ qs, fs.read (q.join settingsName) =
      fs.read (Location.path (Location.along fs.current q.components ++ [settingsName]))) :
    (qs.findSome? (fs.settingsIn? decode)).map Prod.fst =
      ((qs.map Path.components).map (Location.along fs.current)).findSome?
        (fs.settingsAt? decode) := by
  induction qs with
  | nil => rfl
  | cons q qs ih =>
    rw [List.findSome?_cons, List.map_cons, List.map_cons, List.findSome?_cons,
      settingsIn?_of_read (h q List.mem_cons_self)]
    cases fs.settingsAt? decode (Location.along fs.current q.components) with
    | some s => rfl
    | none => exact ih fun q' hq' => h q' (List.mem_cons_of_mem _ hq')

theorem Plain.settingsFor_eq (hfs : fs.Plain) {p q : Path}
    (hq : fs.settingsFolders p = q.ancestors)
    (hfolders : ∀ front ∈ Path.fronts q.components,
      fs.HasFolder (Location.along fs.current front)) :
    (fs.settingsFor decode p).1 =
      fs.nearestOf decode ((Path.fronts q.components).map (Location.along fs.current)) := by
  have hread : ∀ q' ∈ q.ancestors, fs.read (q'.join settingsName) =
      fs.read (Location.path (Location.along fs.current q'.components ++ [settingsName])) := by
    intro q' hq'
    have hmem : q'.components ∈ Path.fronts q.components := by
      rw [← Path.map_components_ancestors]
      exact List.mem_map_of_mem hq'
    exact hfs.read_join isName_settingsName fun front hfront =>
      hfolders front (Path.fronts_subset hmem hfront)
  rw [nearestOf, ← Path.map_components_ancestors, ← findSome?_settingsIn? hread, settingsFor, hq]
  cases q.ancestors.findSome? (fs.settingsIn? decode) <;> rfl

theorem isFile_congr {p q : Path} (h : fs.resolve p = fs.resolve q) :
    fs.isFile p = fs.isFile q := by
  rw [isFile, isFile, find?, find?, h]

theorem Plain.hasFolder (hfs : fs.Plain) {p : Path} {e : Entry} (hp : fs.resolve p = .ok l)
    (hat : fs.at? l = some e) (hfile : fs.isFile p ≠ true) : fs.HasFolder l := by
  rw [isFile, find?, hp] at hfile
  dsimp only at hfile
  rw [hat] at hfile
  cases e with
  | file content => exact absurd rfl hfile
  | folder entries => exact ⟨entries, hat⟩
  | link target => exact absurd hat (hfs.at?_ne_link l target)

/-- The search from a path that leads somewhere goes through folders only. -/
theorem Plain.hasFolder_of_fronts (hfs : fs.Plain) {p : Path} {e : Entry}
    {front : List Component} {names : List String} (hp : fs.resolve p = .ok l)
    (hat : fs.at? l = some e) (hsplit : p.components = front ++ names.map .name)
    (hfile : fs.isFile p = true → names ≠ []) :
    ∀ cs ∈ Path.fronts (front ++ (if fs.isFile p then names.dropLast else names).map .name),
      fs.HasFolder (Location.along fs.current cs) := by
  obtain ⟨hl, hfolders⟩ := hfs.of_resolve hp
  intro cs hcs
  split_ifs at hcs with hisFile
  · obtain ⟨ns, name, rfl⟩ := (List.eq_nil_or_concat' names).resolve_left (hfile hisFile)
    rw [List.dropLast_concat] at hcs
    rw [List.map_append, List.map_singleton, ← List.append_assoc] at hsplit
    apply hfolders cs
    · rw [hsplit, Path.fronts_concat (by simp)]
      exact List.mem_cons_of_mem _ hcs
    · rintro rfl
      have hlength := (Path.mem_fronts_iff.1 hcs).1.length_le
      rw [hsplit, List.length_append, List.length_singleton] at hlength
      omega
  · rw [← hsplit] at hcs
    by_cases hself : cs = p.components
    · rw [hself, ← hl]
      exact hfs.hasFolder hp hat hisFile
    · exact hfolders cs hcs hself

theorem Plain.settingsFor_split (hfs : fs.Plain) (decode : String → Option Settings) {p : Path}
    {e : Entry} {front : List Component} {names : List String}
    (hp : fs.resolve p = .ok l) (hat : fs.at? l = some e)
    (hsplit : p.components = front ++ names.map .name) (hfile : fs.isFile p = true → names ≠ []) :
    (fs.settingsFor decode p).1 =
      fs.nearestOf decode ((if fs.isFile p then names.dropLast else names).inits.reverse.map
          (Location.along fs.current front ++ ·) ++
        (Path.fronts front).tail.map (Location.along fs.current)) := by
  obtain ⟨q, hq, hcomponents⟩ :=
    exists_settingsFolders hsplit fun hisFile hnil => absurd hnil (hfile hisFile)
  have hfolders := hfs.hasFolder_of_fronts hp hat hsplit hfile
  rw [← hcomponents] at hfolders
  rw [hfs.settingsFor_eq hq hfolders, hcomponents, Path.fronts_append_names, List.map_append,
    List.map_map]
  congr 3
  funext ns
  exact (Location.along_append _ _ _).trans (Location.along_names _ _)

theorem map_along_fronts_top (fs : FileSystem) (names : List String) :
    (Path.fronts (.top :: names.map .name)).map (Location.along fs.current) =
      names.inits.reverse := by
  have hfronts := Path.fronts_append_names [.top] names
  rw [List.singleton_append] at hfronts
  rw [hfronts, List.map_append, List.map_map]
  have hid : Location.along fs.current ∘ (fun ns => [.top] ++ ns.map Component.name) = id :=
    funext fun ns => Location.along_names [] ns
  rw [hid, List.map_id]
  exact List.append_nil _

/-- In a file system without links, let a path lead to an entry, and let it end in names behind a
front that leads to some folder. Settings are looked for in the folders from the entry up to that
one, as they are for the path from the top. From there on, the search goes where the fronts of the
front lead, and not through the folders above. So the settings are those for the path from the top
if the path itself goes from the top through names only, or if one of the folders up to that one
has settings that can be used. -/
theorem settingsFor_follows_spelling (hfs : fs.Plain) {p : Path} {e : Entry}
    {front : List Component} {names : List String} {near : List Location}
    (hp : fs.resolve p = .ok l) (hat : fs.at? l = some e)
    (hsplit : p.components = front ++ names.map .name) (hfile : fs.isFile p = true → names ≠ [])
    (hnear : near = (if fs.isFile p then names.dropLast else names).inits.reverse.map
      (Location.along fs.current front ++ ·)) :
    (fs.settingsFor decode p).1 =
        fs.nearestOf decode (near ++ (Path.fronts front).tail.map (Location.along fs.current)) ∧
      (fs.settingsFor decode (Location.path l)).1 =
        fs.nearestOf decode (near ++ (Location.along fs.current front).inits.reverse.tail) ∧
      ((front = [.top] ∨ ∃ folder ∈ near, ∃ s, fs.settingsAt? decode folder = some s) →
        (fs.settingsFor decode p).1 = (fs.settingsFor decode (Location.path l)).1) := by
  obtain ⟨hl, _⟩ := hfs.of_resolve hp
  have hnames : ∀ name ∈ l, IsName name := by
    rw [hl]
    exact Location.isName_along hfs.current fun _ hn => Path.isName_of_mem_components hn
  have htrue : fs.IsCanonical l :=
    ⟨hnames, e, hat, fun target he => hfs.at?_ne_link l target (he ▸ hat)⟩
  have hcanonical := htrue.resolve_path
  have hsame := isFile_congr (hcanonical.trans hp.symm)
  have hspelled := hfs.settingsFor_split decode hp hat hsplit hfile
  -- From the top, the same names stand behind those that lead to the folder.
  have hbase : l = Location.along fs.current front ++ names := by
    rw [hl, hsplit, Location.along_append, Location.along_names]
  have hsplit' : (Location.path l).components =
      (.top :: (Location.along fs.current front).map .name) ++ names.map .name := by
    rw [Location.components_path hnames, hbase, List.map_append]
    rfl
  have htop := hfs.settingsFor_split decode hcanonical hat hsplit' (hsame ▸ hfile)
  have hstart : Location.along fs.current (.top :: (Location.along fs.current front).map .name) =
      Location.along fs.current front :=
    Location.along_names [] _
  rw [hsame, hstart, List.map_tail, map_along_fronts_top, ← hnear] at htop
  rw [← hnear] at hspelled
  refine ⟨hspelled, htop, ?_⟩
  rintro (rfl | ⟨folder, hmem, s, hs⟩)
  · rw [hspelled, htop]
    rfl
  · rw [hspelled, htop, nearestOf_append hmem hs, nearestOf_append hmem hs]

/-- Settings at the top and in one of the two folders there. The other one is current. -/
def sideFolder : FileSystem where
  top := .folder [
    (settingsName, .file "[cxx-backport]\nmax_passes = 4\n".toUTF8),
    ("lib", .folder [(settingsName, .file "[cxx-backport]\nmax_passes = 6\n".toUTF8),
      ("a.cpp", .file .empty)]),
    ("src", .folder [("b.cpp", .file .empty)])]
  current := ["src"]

theorem plain_sideFolder : sideFolder.Plain := ⟨by decide, by decide⟩

theorem settingsFor_follows_spelling_sideFolder :
    sideFolder.resolve ⟨false, ["..", "lib", "a.cpp"]⟩ = .ok ["lib", "a.cpp"] ∧
      (sideFolder.settingsFor Settings.ofText? ⟨false, ["..", "lib", "a.cpp"]⟩).1 =
        (sideFolder.settingsFor Settings.ofText? (Location.path ["lib", "a.cpp"])).1 ∧
      (sideFolder.settingsFor Settings.ofText? ⟨false, ["..", "lib", "a.cpp"]⟩).1 =
        { maxPasses := some 6 } := by
  have hp : sideFolder.resolve ⟨false, ["..", "lib", "a.cpp"]⟩ = .ok ["lib", "a.cpp"] := by
    decide +kernel
  have hsplit : (⟨false, ["..", "lib", "a.cpp"]⟩ : Path).components =
      [.up] ++ ["lib", "a.cpp"].map .name := by decide
  have hisFile : sideFolder.isFile ⟨false, ["..", "lib", "a.cpp"]⟩ = true := by decide +kernel
  have hsettings : sideFolder.settingsAt? Settings.ofText? ["lib"] =
      some { maxPasses := some 6 } := by
    decide +kernel
  have hnear : [["lib"], []] = (if sideFolder.isFile ⟨false, ["..", "lib", "a.cpp"]⟩
      then ["lib", "a.cpp"].dropLast else ["lib", "a.cpp"]).inits.reverse.map
        (Location.along sideFolder.current [.up] ++ ·) := by
    rw [hisFile]
    rfl
  obtain ⟨hspelled, _, hsame⟩ := settingsFor_follows_spelling plain_sideFolder hp rfl hsplit
    (fun _ => by simp) hnear
  refine ⟨hp, hsame (Or.inr ⟨["lib"], by simp, _, hsettings⟩), ?_⟩
  rw [hspelled, nearestOf, List.cons_append, List.findSome?_cons, hsettings]
  rfl

def ownSettings : FileSystem where
  top := .folder [
    ("lib", .folder [("a.cpp", .file .empty)]),
    ("src", .folder [(settingsName, .file "[cxx-backport]\nmax_passes = 4\n".toUTF8)])]
  current := ["src"]

/-- The spelling matters. The search from the current folder misses settings above it, and that
from a folder beside it finds settings in the current one. -/
theorem settingsFor_depends_on_spelling :
    (sideFolder.Plain ∧ sideFolder.resolve ⟨false, ["."]⟩ = .ok ["src"] ∧
      (sideFolder.settingsFor Settings.ofText? ⟨false, ["."]⟩).1 = {} ∧
      (sideFolder.settingsFor Settings.ofText? (Location.path ["src"])).1 =
        { maxPasses := some 4 }) ∧
    ownSettings.Plain ∧ ownSettings.resolve ⟨false, ["..", "lib"]⟩ = .ok ["lib"] ∧
      (ownSettings.settingsFor Settings.ofText? ⟨false, ["..", "lib"]⟩).1 =
        { maxPasses := some 4 } ∧
      (ownSettings.settingsFor Settings.ofText? (Location.path ["lib"])).1 = {} := by
  refine ⟨⟨plain_sideFolder, ?_, ?_, ?_⟩, ⟨by decide, by decide⟩, ?_, ?_, ?_⟩ <;> decide +kernel

end FileSystem

end Downlevel
