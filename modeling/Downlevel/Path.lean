/-!
# Paths as they are spelled

A path is kept the way it was written, cut at its slashes, so that it can be
shown again letter for letter. Its components are what the pieces between the
slashes mean: empty pieces mean nothing, and `.` means something only at the
front of a relative path.
-/

namespace Downlevel

def splitSlash : List Char → List (List Char)
  | [] => [[]]
  | c :: cs =>
    if c = '/' then [] :: splitSlash cs
    else
      match splitSlash cs with
      | [] => [[c]]
      | piece :: pieces => (c :: piece) :: pieces

/-- A path: whether it starts at the top, and the pieces between its slashes. -/
structure Path where
  rooted : Bool
  pieces : List String
  deriving DecidableEq, Repr, Inhabited

inductive Component where
  | top | here | up
  | name (s : String)
  deriving DecidableEq, Repr

def Component.ofPiece? (piece : String) : Option Component :=
  if piece = "" ∨ piece = "." then none
  else if piece = ".." then some .up
  else some (.name piece)

namespace Path

def ofText (text : String) : Path :=
  match text.toList with
  | '/' :: cs => ⟨true, (splitSlash cs).map String.ofList⟩
  | cs => ⟨false, (splitSlash cs).map String.ofList⟩

def text (p : Path) : String :=
  (if p.rooted then "/" else "") ++ "/".intercalate p.pieces

def isEmpty (p : Path) : Bool :=
  !p.rooted && (p.pieces == [] || p.pieces == [""])

def components (p : Path) : List Component :=
  if p.rooted then .top :: p.pieces.filterMap Component.ofPiece?
  else
    match p.pieces with
    | "." :: rest => .here :: rest.filterMap Component.ofPiece?
    | pieces => pieces.filterMap Component.ofPiece?

def trimBlank (pieces : List String) : List String :=
  (pieces.reverse.dropWhile fun s => s == "" || s == ".").reverse

/-- The path without its last component. The front of a path stays as it is
spelled; the top and the empty path have no parent. -/
def parent? (p : Path) : Option Path :=
  match p.rooted, p.pieces with
  | false, "." :: rest =>
    match trimBlank rest with
    | [] => some ⟨false, []⟩
    | kept => some ⟨false, "." :: trimBlank kept.dropLast⟩
  | rooted, pieces =>
    match trimBlank pieces with
    | [] => none
    | kept => some ⟨rooted, trimBlank kept.dropLast⟩

def join (p : Path) (name : String) : Path :=
  match p.pieces.getLast? with
  | some "" => ⟨p.rooted, p.pieces.dropLast ++ [name]⟩
  | _ => ⟨p.rooted, p.pieces ++ [name]⟩

def joinAll (p : Path) (names : List String) : Path :=
  names.foldl join p

def fileName? (p : Path) : Option String :=
  match p.components.getLast? with
  | some (.name s) => some s
  | _ => none

theorem length_trimBlank_le (pieces : List String) :
    (trimBlank pieces).length ≤ pieces.length := by
  unfold trimBlank
  rw [List.length_reverse]
  calc
    _ ≤ pieces.reverse.length := (List.dropWhile_sublist _).length_le
    _ = pieces.length := List.length_reverse

theorem length_parent?_lt {p q : Path} (h : p.parent? = some q) :
    q.pieces.length < p.pieces.length := by
  unfold parent? at h
  split at h
  · rename_i rest _ hp
    have hle := length_trimBlank_le rest
    rw [hp]
    split at h
    · injection h with h
      subst h
      simp
    · rename_i kept hne
      injection h with h
      subst h
      have := length_trimBlank_le (trimBlank rest).dropLast
      have hpos : 0 < (trimBlank rest).length := List.length_pos_iff.mpr hne
      simp only [List.length_cons, List.length_dropLast] at this ⊢
      omega
  · rename_i pieces _
    have hle := length_trimBlank_le p.pieces
    split at h
    · simp at h
    · rename_i hne
      injection h with h
      subst h
      have := length_trimBlank_le (trimBlank p.pieces).dropLast
      have hpos : 0 < (trimBlank p.pieces).length := List.length_pos_iff.mpr hne
      simp only [List.length_dropLast] at this ⊢
      omega

def ancestors (p : Path) : List Path :=
  match h : p.parent? with
  | some q =>
    have := length_parent?_lt h
    p :: q.ancestors
  | none => [p]
termination_by p.pieces.length

end Path

end Downlevel
