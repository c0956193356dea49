import Downlevel.FileSystem.Resolve

/-!
# Contents of files

Replacing the content of a file keeps everything else: the other contents, and
all names, folders and links. What a path leads to depends only on the latter,
so it stays the same too.
-/

namespace Downlevel

namespace Entry

/-- What some names lead to lies below a folder, inside the entry that the first of them leads
to. -/
theorem exists_lookup_of_at? {e e' : Entry} {name : String} {rest : Location}
    (h : e.at? (name :: rest) = some e') :
    ∃ entries e₁, e = folder entries ∧ entries.lookup name = some e₁ ∧ e₁.at? rest = some e' := by
  cases e with
  | file content => cases h
  | link target => cases h
  | folder entries =>
    rw [at?] at h
    cases hlookup : entries.lookup name with
    | none =>
      rw [hlookup] at h
      cases h
    | some e₁ =>
      rw [hlookup] at h
      exact ⟨entries, e₁, rfl, hlookup, h⟩

mutual

def hollow : Entry → Entry
  | file _ => file .empty
  | folder entries => folder (hollows entries)
  | link target => link target

def hollows : List (String × Entry) → List (String × Entry)
  | [] => []
  | (name, e) :: rest => (name, e.hollow) :: hollows rest

end

theorem lookup_hollows (name : String) (entries : List (String × Entry)) :
    (hollows entries).lookup name = (entries.lookup name).map hollow := by
  induction entries with
  | nil => rfl
  | cons entry rest ih =>
    obtain ⟨n, e⟩ := entry
    rw [hollows, List.lookup_cons, List.lookup_cons, ih]
    cases name == n <;> rfl

theorem at?_hollow (e : Entry) (l : Location) : e.hollow.at? l = (e.at? l).map hollow := by
  induction l generalizing e with
  | nil => cases e <;> rfl
  | cons name rest ih =>
    cases e with
    | file content => rfl
    | link target => rfl
    | folder entries =>
      rw [hollow, at?, at?, lookup_hollows]
      cases entries.lookup name with
      | none => rfl
      | some e => exact ih e

/-! ### Writing -/

def writeIn (content : ByteArray) (name : String) (rest : Location) (entry : String × Entry) :
    String × Entry :=
  if entry.1 = name then (entry.1, entry.2.write content rest) else entry

theorem write_cons_folder (content : ByteArray) (name : String) (rest : Location)
    (entries : List (String × Entry)) :
    write content (name :: rest) (folder entries) =
      folder (entries.map (writeIn content name rest)) := by
  rw [write]
  rfl

theorem lookup_map_writeIn (content : ByteArray) (name : String) (rest : Location)
    (entries : List (String × Entry)) (name' : String) :
    (entries.map (writeIn content name rest)).lookup name' =
      (entries.lookup name').map fun e =>
        if name' = name then e.write content rest else e := by
  induction entries with
  | nil => rfl
  | cons entry entries ih =>
    obtain ⟨n, e⟩ := entry
    rw [List.map_cons, writeIn]
    by_cases hn' : name' = n
    · subst hn'
      by_cases hn : name' = name
      · simp [hn]
      · simp [hn]
    · have hfst : (if n = name then (n, e.write content rest) else (n, e)).1 = n := by
        split <;> rfl
      rw [List.lookup_cons, List.lookup_cons, hfst, beq_eq_false_iff_ne.2 hn']
      exact ih

theorem hollow_write (content : ByteArray) (l : Location) (e : Entry) :
    (e.write content l).hollow = e.hollow := by
  induction l generalizing e with
  | nil => cases e <;> rfl
  | cons name rest ih =>
    cases e with
    | file content => rfl
    | link target => rfl
    | folder entries =>
      rw [write_cons_folder, hollow, hollow]
      congr 1
      induction entries with
      | nil => rfl
      | cons entry entries ih' =>
        obtain ⟨n, e⟩ := entry
        rw [List.map_cons, writeIn]
        split
        · rw [hollows, hollows, ih, ih']
        · rw [hollows, hollows, ih']

theorem at?_write_self {l : Location} {e : Entry} {before : ByteArray}
    (h : e.at? l = some (file before)) (content : ByteArray) :
    (e.write content l).at? l = some (file content) := by
  induction l generalizing e with
  | nil =>
    cases e with
    | file b => rfl
    | folder entries => cases h
    | link target => cases h
  | cons name rest ih =>
    obtain ⟨entries, e₁, rfl, hlookup, hbelow⟩ := exists_lookup_of_at? h
    rw [write_cons_folder, at?, lookup_map_writeIn, hlookup]
    simpa using ih hbelow

/-- Writing one file keeps the content of every other. -/
theorem at?_write_of_ne {l l' : Location} {e : Entry} {before : ByteArray} (hne : l' ≠ l)
    (h : e.at? l' = some (file before)) (content : ByteArray) :
    (e.write content l).at? l' = some (file before) := by
  induction l generalizing e l' with
  | nil =>
    cases e with
    | file b =>
      cases l' with
      | nil => exact absurd rfl hne
      | cons name rest => cases h
    | folder entries => exact h
    | link target => exact h
  | cons name rest ih =>
    cases e with
    | file b => exact h
    | link target => exact h
    | folder entries =>
      cases l' with
      | nil => cases h
      | cons name' rest' =>
        obtain ⟨_, e₁, heq, hlookup, hbelow⟩ := exists_lookup_of_at? h
        obtain rfl := Entry.folder.inj heq
        rw [write_cons_folder, at?, lookup_map_writeIn, hlookup]
        by_cases hname : name' = name
        · have hrest : rest' ≠ rest := fun hrest => hne (by rw [hname, hrest])
          simpa [hname] using ih hrest hbelow
        · simpa [hname] using hbelow

/-- Writes commute unless they give different contents to one file. -/
theorem write_comm {l l' : Location} {content content' : ByteArray}
    (h : l = l' → content = content') (e : Entry) :
    (e.write content l).write content' l' = (e.write content' l').write content l := by
  induction l generalizing l' e with
  | nil =>
    cases l' with
    | nil => rw [h rfl]
    | cons name' rest' => cases e <;> rfl
  | cons name rest ih =>
    cases l' with
    | nil => cases e <;> rfl
    | cons name' rest' =>
      cases e with
      | file b => rfl
      | link target => rfl
      | folder entries =>
        simp only [write_cons_folder, List.map_map]
        congr 1
        refine List.map_congr_left fun entry _ => ?_
        obtain ⟨n, e⟩ := entry
        simp only [Function.comp_apply, writeIn]
        by_cases hn : n = name <;> by_cases hn' : n = name'
        · simp only [if_pos hn, if_pos hn']
          rw [ih fun hrest => h (by rw [← hn, ← hn', hrest])]
        · simp only [if_pos hn, if_neg hn']
        · simp only [if_neg hn, if_pos hn']
        · simp only [if_neg hn, if_neg hn']

theorem write_write (content : ByteArray) (l : Location) (e : Entry) :
    (e.write content l).write content l = e.write content l := by
  induction l generalizing e with
  | nil => cases e <;> rfl
  | cons name rest ih =>
    cases e with
    | file b => rfl
    | link target => rfl
    | folder entries =>
      simp only [write_cons_folder, List.map_map]
      congr 1
      refine List.map_congr_left fun entry _ => ?_
      obtain ⟨n, e⟩ := entry
      simp only [Function.comp_apply, writeIn]
      by_cases hn : n = name
      · simp only [if_pos hn, ih]
      · simp only [if_neg hn]

end Entry

namespace FileSystem

variable {fs fs' : FileSystem}

def hollow (fs : FileSystem) : FileSystem := { fs with top := fs.top.hollow }

theorem at?_hollow (l : Location) : fs.hollow.at? l = (fs.at? l).map Entry.hollow :=
  Entry.at?_hollow fs.top l

theorem hollow_write (l : Location) (text : String) : (fs.write l text).hollow = fs.hollow := by
  rw [hollow, hollow, write, Entry.hollow_write]

theorem at?_write_self {l : Location} {before : ByteArray} (h : fs.at? l = some (.file before))
    (text : String) : (fs.write l text).at? l = some (.file text.toUTF8) :=
  Entry.at?_write_self h text.toUTF8

theorem at?_write_of_ne {l l' : Location} {before : ByteArray} (hne : l' ≠ l)
    (h : fs.at? l' = some (.file before)) (text : String) :
    (fs.write l text).at? l' = some (.file before) :=
  Entry.at?_write_of_ne hne h text.toUTF8

theorem write_comm {l l' : Location} {text text' : String} (h : l = l' → text = text') :
    (fs.write l text).write l' text' = (fs.write l' text').write l text := by
  simp only [write]
  rw [Entry.write_comm fun hl => by rw [h hl]]

theorem write_write (l : Location) (text : String) :
    (fs.write l text).write l text = fs.write l text := by
  simp only [write, Entry.write_write]

theorem current_eq (h : fs'.hollow = fs.hollow) : fs'.current = fs.current := by
  change fs'.hollow.current = fs.hollow.current
  rw [h]

theorem followTo_hollow (onLink : Location → List String → Except SystemFault Location)
    (here : Location) (pieces : List String) :
    fs.hollow.followTo onLink here pieces = fs.followTo onLink here pieces := by
  induction pieces generalizing here with
  | nil => rfl
  | cons piece rest ih =>
    rw [followTo, followTo, at?_hollow]
    cases fs.at? here with
    | none => rfl
    | some e =>
      cases e with
      | file content => rfl
      | link target => rfl
      | folder entries =>
        simp only [Option.map_some, Entry.hollow, Entry.lookup_hollows, ih]
        cases entries.lookup piece with
        | none => rfl
        | some e => cases e <;> rfl

/-- Contents of files do not bear on where a path leads. -/
theorem follow_hollow (links : Nat) (here : Location) (pieces : List String) :
    fs.hollow.follow links here pieces = fs.follow links here pieces := by
  induction links generalizing here pieces with
  | zero => exact followTo_hollow _ here pieces
  | succ links ih =>
    have hlinks : fs.hollow.follow links = fs.follow links :=
      funext fun here => funext fun pieces => ih here pieces
    rw [follow, follow, hlinks]
    exact followTo_hollow _ here pieces

theorem follow_eq (h : fs'.hollow = fs.hollow) (links : Nat) (here : Location)
    (pieces : List String) : fs'.follow links here pieces = fs.follow links here pieces := by
  rw [← follow_hollow, h, follow_hollow]

theorem resolve_eq (h : fs'.hollow = fs.hollow) (p : Path) : fs'.resolve p = fs.resolve p := by
  rw [resolve, resolve, current_eq h, follow_eq h]

theorem at?_eq (h : fs'.hollow = fs.hollow) (l : Location) :
    (fs'.at? l).map Entry.hollow = (fs.at? l).map Entry.hollow := by
  rw [← at?_hollow, h, at?_hollow]

/-- A file stays a file, whatever it holds. -/
theorem exists_file (h : fs'.hollow = fs.hollow) {l : Location} {content : ByteArray}
    (hat : fs.at? l = some (.file content)) : ∃ content', fs'.at? l = some (.file content') := by
  have hmap := at?_eq h l
  rw [hat] at hmap
  obtain ⟨e, he, hhollow⟩ := Option.map_eq_some_iff.1 hmap
  cases e with
  | file content' => exact ⟨content', he⟩
  | folder entries => cases hhollow
  | link target => cases hhollow

end FileSystem

end Downlevel
