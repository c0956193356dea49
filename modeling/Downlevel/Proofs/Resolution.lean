import Downlevel.Proofs.Files
import Downlevel.Proofs.PathOrder

/-!
# Where paths lead

Pieces that stand for nothing make no difference where a name follows them. The
names of a location that a path leads to lead to it from the top without any link,
so the path from the top leads there as well.
-/

namespace Downlevel

namespace Entry

theorem at?_nil (e : Entry) : e.at? [] = some e := by
  cases e <;> rfl

theorem at?_append_eq_bind (e : Entry) (l ns : Location) :
    e.at? (l ++ ns) = (e.at? l).bind (·.at? ns) := by
  induction l generalizing e with
  | nil =>
    rw [at?_nil]
    rfl
  | cons name l ih =>
    cases e with
    | file content => rfl
    | link target => rfl
    | folder entries =>
      rw [List.cons_append, at?, at?]
      cases entries.lookup name with
      | none => rfl
      | some e => exact ih e

theorem at?_append {e e' : Entry} {l : Location} (h : e.at? l = some e') (ns : Location) :
    e.at? (l ++ ns) = e'.at? ns := by
  rw [at?_append_eq_bind, h, Option.bind_some]

theorem exists_at?_of_append {e e' : Entry} {l ns : Location} (h : e.at? (l ++ ns) = some e') :
    ∃ e₁, e.at? l = some e₁ ∧ e₁.at? ns = some e' := by
  rw [at?_append_eq_bind] at h
  exact Option.bind_eq_some_iff.1 h

theorem exists_folder_of_at? {e e' : Entry} {l ns : Location} {name : String}
    (h : e.at? (l ++ name :: ns) = some e') : ∃ entries, e.at? l = some (folder entries) := by
  obtain ⟨e₁, hat, hbelow⟩ := exists_at?_of_append h
  obtain ⟨entries, _, rfl, _⟩ := exists_lookup_of_at? hbelow
  exact ⟨entries, hat⟩

end Entry

/-! ### Blank pieces -/

theorem Component.ofPiece?_eq_none_iff {piece : String} :
    ofPiece? piece = none ↔ piece = "" ∨ piece = "." := by
  unfold ofPiece?
  split_ifs with hblank hup
  · exact iff_of_true rfl hblank
  · exact iff_of_false (by simp) hblank
  · exact iff_of_false (by simp) hblank

theorem Component.ofPiece?_ne_top (piece : String) : ofPiece? piece ≠ some .top := by
  unfold ofPiece?
  split_ifs <;> simp

def Component.spelling : Component → String
  | top => ""
  | here => "."
  | up => ".."
  | name s => s

theorem Component.spelling_of_ofPiece? {piece : String} {c : Component}
    (h : ofPiece? piece = some c) : c.spelling = piece := by
  unfold ofPiece? at h
  split_ifs at h with _ hup
  · rw [← Option.some.inj h, hup]
    rfl
  · rw [← Option.some.inj h]
    rfl

def tidy (pieces : List String) : List String :=
  (pieces.filterMap Component.ofPiece?).map Component.spelling

theorem tidy_cons_blank {piece : String} (h : Component.ofPiece? piece = none)
    (pieces : List String) : tidy (piece :: pieces) = tidy pieces := by
  rw [tidy, tidy, List.filterMap_cons_none h]

theorem tidy_cons_solid {piece : String} {c : Component} (h : Component.ofPiece? piece = some c)
    (pieces : List String) : tidy (piece :: pieces) = piece :: tidy pieces := by
  rw [tidy, tidy, List.filterMap_cons_some h, List.map_cons, Component.spelling_of_ofPiece? h]

theorem tidy_append (as bs : List String) : tidy (as ++ bs) = tidy as ++ tidy bs := by
  rw [tidy, List.filterMap_append, List.map_append]
  rfl

theorem tidy_tidy (pieces : List String) : tidy (tidy pieces) = tidy pieces := by
  induction pieces with
  | nil => rfl
  | cons piece pieces ih =>
    cases hpiece : Component.ofPiece? piece with
    | none => rw [tidy_cons_blank hpiece, ih]
    | some c => rw [tidy_cons_solid hpiece, tidy_cons_solid hpiece, ih]

namespace FileSystem

variable {fs : FileSystem} {onLink : Location → List String → Except SystemFault Location}
  {here : Location} {piece name : String} {rest rest' : List String}

theorem followTo_cons_blank (hpiece : Component.ofPiece? piece = none) (hrest : rest ≠ []) :
    fs.followTo onLink here (piece :: rest) = fs.followTo onLink here rest := by
  have hblank := Component.ofPiece?_eq_none_iff.1 hpiece
  obtain ⟨next, behind, rfl⟩ := List.exists_cons_of_ne_nil hrest
  rw [followTo]
  cases hat : fs.at? here with
  | none => rw [followTo, hat]
  | some e =>
    cases e with
    | file content => rw [followTo, hat]
    | link target => rw [followTo, hat]
    | folder entries => exact if_pos hblank

theorem followTo_cons_congr (hnext : ∀ l, fs.followTo onLink l rest = fs.followTo onLink l rest')
    (hlink : ∀ l pieces, onLink l (pieces ++ rest) = onLink l (pieces ++ rest')) :
    fs.followTo onLink here (piece :: rest) = fs.followTo onLink here (piece :: rest') := by
  rw [followTo, followTo]
  simp only [hnext, hlink]

theorem followTo_tidy
    (honLink : ∀ l pieces, onLink l (pieces ++ [name]) = onLink l (tidy pieces ++ [name]))
    (here : Location) (pieces : List String) :
    fs.followTo onLink here (pieces ++ [name]) =
      fs.followTo onLink here (tidy pieces ++ [name]) := by
  induction pieces generalizing here with
  | nil => rfl
  | cons piece pieces ih =>
    rw [List.cons_append]
    cases hpiece : Component.ofPiece? piece with
    | none => rw [tidy_cons_blank hpiece, followTo_cons_blank hpiece (by simp), ih]
    | some c =>
      rw [tidy_cons_solid hpiece, List.cons_append]
      apply followTo_cons_congr ih
      intro l target
      rw [← List.append_assoc, ← List.append_assoc, honLink, honLink l (target ++ tidy pieces),
        tidy_append, tidy_append, tidy_tidy]

/-- Pieces that stand for nothing do not bear on where a path leads that goes on with a name. -/
theorem follow_tidy (links : Nat) (here : Location) (pieces : List String) :
    fs.follow links here (pieces ++ [name]) = fs.follow links here (tidy pieces ++ [name]) := by
  induction links generalizing here pieces with
  | zero => exact followTo_tidy (fun _ _ => rfl) here pieces
  | succ links ih => exact followTo_tidy ih here pieces

end FileSystem

/-! ### Canonical locations -/

theorem isName_of_ofPiece? {piece name : String}
    (h : Component.ofPiece? piece = some (.name name)) : IsName name := by
  have hpiece : name = piece := Component.spelling_of_ofPiece? h
  rw [← hpiece] at h
  exact h

theorem filterMap_ofPiece?_names {names : List String} (h : ∀ name ∈ names, IsName name) :
    names.filterMap Component.ofPiece? = names.map .name := by
  induction names with
  | nil => rfl
  | cons name names ih =>
    rw [List.filterMap_cons_some (h name List.mem_cons_self), List.map_cons,
      ih fun n hn => h n (List.mem_cons_of_mem _ hn)]

namespace FileSystem

variable {fs : FileSystem} {onLink : Location → List String → Except SystemFault Location}
  {here l : Location}

theorem at?_concat {entries : List (String × Entry)} (hat : fs.at? here = some (.folder entries))
    (name : String) : fs.at? (here ++ [name]) = entries.lookup name := by
  rw [at?, Entry.at?_append hat, Entry.at?]
  cases entries.lookup name with
  | none => rfl
  | some e => exact e.at?_nil

/-- Names lead from the top to an entry that is no link. -/
structure IsCanonical (fs : FileSystem) (l : Location) : Prop where
  names : ∀ name ∈ l, IsName name
  entry : ∃ e, fs.at? l = some e ∧ ∀ target, e ≠ .link target

theorem IsCanonical.of_prefix {l' : Location} (h : fs.IsCanonical l) (hfront : l' <+: l) :
    fs.IsCanonical l' := by
  obtain ⟨behind, rfl⟩ := hfront
  obtain ⟨hnames, e, hat, he⟩ := h
  refine ⟨fun name hname => hnames name (List.mem_append_left behind hname), ?_⟩
  cases behind with
  | nil =>
    rw [List.append_nil] at hat
    exact ⟨e, hat, he⟩
  | cons name behind =>
    obtain ⟨entries, hfolder⟩ := Entry.exists_folder_of_at? hat
    exact ⟨.folder entries, hfolder, fun target => by simp⟩

/-- One step on the way leads from a canonical location to another one, or to a link. -/
theorem followTo_isCanonical (hhere : fs.IsCanonical here)
    (honLink : ∀ here pieces l, fs.IsCanonical here → onLink here pieces = .ok l →
      fs.IsCanonical l) {pieces : List String}
    (h : fs.followTo onLink here pieces = .ok l) : fs.IsCanonical l := by
  induction pieces generalizing here with
  | nil =>
    cases h
    exact hhere
  | cons piece rest ih =>
    rw [followTo] at h
    cases hat : fs.at? here with
    | none =>
      rw [hat] at h
      cases h
    | some e =>
      rw [hat] at h
      cases e with
      | file content => cases h
      | link target => cases h
      | folder entries =>
        dsimp only at h
        split_ifs at h with hblank hup
        · exact ih hhere h
        · exact ih (hhere.of_prefix (List.dropLast_prefix here)) h
        · have hnext := at?_concat hat piece
          cases hlookup : entries.lookup piece with
          | none =>
            rw [hlookup] at h
            cases h
          | some e =>
            rw [hlookup] at h hnext
            have hname : IsName piece := by
              unfold IsName Component.ofPiece?
              rw [if_neg hblank, if_neg hup]
            have hnames : ∀ name ∈ here ++ [piece], IsName name := by
              intro name hmem
              rcases List.mem_append.1 hmem with hmem | hmem
              · exact hhere.names name hmem
              · rwa [List.mem_singleton.1 hmem]
            cases e with
            | file content => exact ih ⟨hnames, _, hnext, fun target => by simp⟩ h
            | folder es => exact ih ⟨hnames, _, hnext, fun target => by simp⟩ h
            | link target =>
              refine honLink _ _ l ?_ h
              split_ifs
              · exact hhere.of_prefix List.nil_prefix
              · exact hhere

theorem follow_isCanonical (links : Nat) {pieces : List String} (hhere : fs.IsCanonical here)
    (h : fs.follow links here pieces = .ok l) : fs.IsCanonical l := by
  induction links generalizing here pieces l with
  | zero =>
    refine followTo_isCanonical hhere (fun _ _ _ _ hlink => ?_) h
    cases hlink
  | succ links ih => exact followTo_isCanonical hhere (fun _ _ _ hhere hlink => ih hhere hlink) h

/-- What a path leads to is canonical, if the current folder is. -/
theorem resolve_isCanonical (hcurrent : fs.IsCanonical fs.current) {p : Path}
    (h : fs.resolve p = .ok l) : fs.IsCanonical l := by
  rw [resolve] at h
  split_ifs at h
  · exact follow_isCanonical _ (hcurrent.of_prefix List.nil_prefix) h
  · exact follow_isCanonical _ hcurrent h

theorem followTo_names {rest : List String} (h : fs.IsCanonical (here ++ rest)) :
    fs.followTo onLink here rest = .ok (here ++ rest) := by
  induction rest generalizing here with
  | nil => rw [followTo, List.append_nil]
  | cons piece rest ih =>
    have hname : IsName piece := h.names piece (by simp)
    obtain ⟨e, hat, _⟩ := h.entry
    obtain ⟨entries, hfolder⟩ := Entry.exists_folder_of_at? hat
    rw [List.append_cons] at h
    obtain ⟨e', hat', he'⟩ := (h.of_prefix (List.prefix_append _ rest)).entry
    rw [at?_concat hfolder] at hat'
    unfold IsName Component.ofPiece? at hname
    split_ifs at hname with hblank hup
    · cases hname
    · have hrest := ih h
      rw [← List.append_cons] at hrest
      rw [followTo, at?, hfolder]
      simp only [if_neg hblank, if_neg hup, hat']
      cases e' with
      | file content => exact hrest
      | folder es => exact hrest
      | link target => exact absurd rfl (he' target)

/-- A canonical location is where the path from the top to it leads. -/
theorem IsCanonical.resolve_path (h : fs.IsCanonical l) :
    fs.resolve (Location.path l) = .ok l := by
  rw [resolve, if_neg (by simp [Path.isEmpty, Location.path])]
  exact followTo_names h

end FileSystem

theorem Location.components_path {l : Location} (h : ∀ name ∈ l, IsName name) :
    (Location.path l).components = .top :: l.map .name := by
  rw [← filterMap_ofPiece?_names h]
  rfl

/-- Only a path from the top has the top as a component. -/
theorem Path.rooted_of_components {p : Path} {cs : List Component} (h : p.components = .top :: cs) :
    p.rooted = true ∧ p.pieces.filterMap Component.ofPiece? = cs := by
  rw [components_eq] at h
  split_ifs at h with hrooted hdot
  · exact ⟨hrooted, (List.cons.inj h).2⟩
  · cases (List.cons.inj h).1
  · have hmem : Component.top ∈ p.pieces.filterMap Component.ofPiece? := by
      rw [List.nil_append] at h
      rw [h]
      exact List.mem_cons_self
    obtain ⟨piece, _, hpiece⟩ := List.mem_filterMap.1 hmem
    exact absurd hpiece (Component.ofPiece?_ne_top piece)

/-- A path from the top that ends in a name leads where its names do. -/
theorem FileSystem.resolve_of_components {fs : FileSystem} {q : Path} {l : Location}
    {front : List String} {name : String} (h : q.components = .top :: l.map .name)
    (hpieces : q.pieces = front ++ [name]) (hname : IsName name) :
    fs.resolve q = fs.resolve (Location.path l) := by
  obtain ⟨hrooted, hnames⟩ := Path.rooted_of_components h
  have htidy : tidy front ++ [name] = l := by
    have hlast : tidy [name] = [name] := tidy_cons_solid hname []
    have hall : tidy q.pieces = l := by
      rw [tidy, hnames, List.map_map]
      exact List.map_id l
    rw [← hall, hpieces, tidy_append, hlast]
  rw [resolve, resolve, Path.isEmpty, Path.isEmpty, hrooted, hpieces, follow_tidy, htidy]
  rfl

end Downlevel
