import Downlevel.Proofs.Resolution
import Mathlib.Data.List.DropRight
import Mathlib.Data.List.Infix

/-!
# Fronts of paths

The parent of a path lacks its last component and keeps the others. So the parents
of a path, one after the other, go through the fronts of its components. A path
from the top ends at the top, and any other one at the empty path.
-/

namespace Downlevel

namespace Path

theorem trimBlank_concat (pieces : List String) (piece : String) :
    trimBlank (pieces ++ [piece]) =
      if Component.ofPiece? piece = none then trimBlank pieces else pieces ++ [piece] := by
  have hconcat := List.rdropWhile_concat (fun s => s == "" || s == ".") pieces piece
  simp only [Bool.or_eq_true, beq_iff_eq, ← Component.ofPiece?_eq_none_iff] at hconcat
  exact hconcat

/-- Trimmed pieces are none, or they end in one that stands for a component. -/
theorem trimBlank_cases (pieces : List String) :
    (trimBlank pieces = [] ∧ pieces.filterMap Component.ofPiece? = []) ∨
      ∃ front last c, trimBlank pieces = front ++ [last] ∧ Component.ofPiece? last = some c ∧
        pieces.filterMap Component.ofPiece? = front.filterMap Component.ofPiece? ++ [c] := by
  induction pieces using List.reverseRecOn with
  | nil => exact Or.inl ⟨rfl, rfl⟩
  | append_singleton pieces piece ih =>
    rw [trimBlank_concat, List.filterMap_append]
    cases hpiece : Component.ofPiece? piece with
    | none =>
      rw [if_pos rfl, List.filterMap_cons_none hpiece, List.filterMap_nil, List.append_nil]
      exact ih
    | some c =>
      rw [if_neg (by simp), List.filterMap_cons_some hpiece, List.filterMap_nil]
      exact Or.inr ⟨pieces, piece, c, rfl, hpiece, rfl⟩

theorem trimBlank_prefix_pieces (pieces : List String) : trimBlank pieces <+: pieces :=
  List.rdropWhile_prefix _ pieces

theorem filterMap_trimBlank (pieces : List String) :
    (trimBlank pieces).filterMap Component.ofPiece? = pieces.filterMap Component.ofPiece? := by
  rcases trimBlank_cases pieces with ⟨htrim, hnil⟩ | ⟨front, last, c, htrim, hlast, hcs⟩
  · rw [htrim, hnil, List.filterMap_nil]
  · rw [htrim, hcs, List.filterMap_append, List.filterMap_cons_some hlast, List.filterMap_nil]

theorem parent?_of_dot (rest : List String) :
    parent? ⟨false, "." :: rest⟩ =
      if trimBlank rest = [] then some ⟨false, []⟩
      else some ⟨false, "." :: trimBlank (trimBlank rest).dropLast⟩ := by
  cases htrim : trimBlank rest <;> simp [parent?, htrim]

theorem parent?_of_front {p : Path} (h : p.rooted = false → p.pieces.head? ≠ some ".") :
    p.parent? =
      if trimBlank p.pieces = [] then none
      else some ⟨p.rooted, trimBlank (trimBlank p.pieces).dropLast⟩ := by
  unfold parent?
  split
  next rest hrooted hpieces => exact absurd (by rw [hpieces]; rfl) (h hrooted)
  next =>
    split
    next hnil => rw [if_pos hnil]
    next hne => rw [if_neg hne]

/-- Only the top and the empty path have no parent. Any other path has one that lacks its last
component. -/
theorem parent?_cases (p : Path) :
    (p.parent? = none ∧ (p.components = [] ∨ p.components = [.top])) ∨
      ∃ q c, p.parent? = some q ∧ p.components = q.components ++ [c] ∧ c ≠ .top := by
  obtain ⟨rooted, pieces⟩ := p
  by_cases hdot : rooted = false ∧ pieces.head? = some "."
  · obtain ⟨rfl, hhead⟩ := hdot
    obtain ⟨rest, rfl⟩ := List.head?_eq_some_iff.1 hhead
    rw [parent?_of_dot]
    right
    rcases trimBlank_cases rest with ⟨htrim, hnil⟩ | ⟨front, last, c, htrim, hlast, hrest⟩
    · refine ⟨⟨false, []⟩, .here, if_pos htrim, ?_, by simp⟩
      simp [components, hnil]
    · refine ⟨⟨false, "." :: trimBlank front⟩, c, ?_, ?_, ?_⟩
      · rw [htrim, if_neg (by simp), List.dropLast_concat]
      · simp [components, hrest, filterMap_trimBlank]
      · rintro rfl
        exact Component.ofPiece?_ne_top last hlast
  · rw [not_and] at hdot
    rw [parent?_of_front hdot]
    rcases trimBlank_cases pieces with ⟨htrim, hnil⟩ | ⟨front, last, c, htrim, hlast, hpieces⟩
    · refine Or.inl ⟨if_pos htrim, ?_⟩
      rw [components_eq, hnil]
      cases rooted with
      | true => exact Or.inr rfl
      | false => exact Or.inl (by simp [hdot rfl])
    · refine Or.inr ⟨⟨rooted, trimBlank front⟩, c, ?_, ?_, ?_⟩
      · rw [htrim, if_neg (by simp), List.dropLast_concat]
      · -- The front of the pieces starts as they do, so it starts with no dot either.
        have hhead : rooted = false → (trimBlank front).head? ≠ some "." := by
          intro hrooted hfront
          apply hdot hrooted
          obtain ⟨rest, hrest⟩ := List.head?_eq_some_iff.1 hfront
          have hbegins : trimBlank front <+: pieces :=
            (trimBlank_prefix_pieces front).trans
              ((List.prefix_append front [last]).trans (htrim ▸ trimBlank_prefix_pieces pieces))
          rw [hrest] at hbegins
          obtain ⟨behind, hbehind⟩ := hbegins
          rw [← hbehind]
          rfl
        rw [components_eq, components_eq, hpieces, filterMap_trimBlank]
        cases rooted with
        | true => rfl
        | false => simp [hdot rfl, hhead rfl]
      · rintro rfl
        exact Component.ofPiece?_ne_top last hlast

theorem exists_parent? {p : Path} {cs : List Component} {c : Component}
    (h : p.components = cs ++ [c]) (hc : c ≠ .top) :
    ∃ q, p.parent? = some q ∧ q.components = cs := by
  rcases parent?_cases p with ⟨_, hnil | htop⟩ | ⟨q, c', hq, hcomponents, _⟩
  · rw [hnil] at h
    simp at h
  · rw [htop] at h
    cases cs with
    | nil => exact absurd (List.cons.inj h).1.symm hc
    | cons => simp at h
  · rw [hcomponents] at h
    exact ⟨q, hq, (List.append_inj' h rfl).1⟩

theorem parent?_of_top {p : Path} (h : p.components = [.top]) : p.parent? = none := by
  rcases parent?_cases p with ⟨hnone, _⟩ | ⟨q, c, _, hcomponents, hc⟩
  · exact hnone
  · rw [h] at hcomponents
    cases hq : q.components with
    | nil =>
      rw [hq] at hcomponents
      exact absurd (List.cons.inj hcomponents).1.symm hc
    | cons => simp [hq] at hcomponents

theorem ancestors_of_parent? {p q : Path} (h : p.parent? = some q) :
    p.ancestors = p :: q.ancestors := by
  rw [ancestors]
  split
  next q' hq' =>
    rw [h] at hq'
    rw [Option.some.inj hq']
  next hnone =>
    rw [h] at hnone
    cases hnone

theorem ancestors_of_none {p : Path} (h : p.parent? = none) : p.ancestors = [p] := by
  rw [ancestors]
  split
  next q hq =>
    rw [h] at hq
    cases hq
  next => rfl

/-- The fronts of components, the longest one first. The top is never taken off. -/
def fronts : List Component → List (List Component)
  | .top :: cs => cs.inits.reverse.map (.top :: ·)
  | cs => cs.inits.reverse

theorem fronts_concat {c : Component} (hc : c ≠ .top) (cs : List Component) :
    fronts (cs ++ [c]) = (cs ++ [c]) :: fronts cs := by
  have hinits : ∀ cs : List Component,
      (cs ++ [c]).inits.reverse = (cs ++ [c]) :: cs.inits.reverse := by
    intro cs
    simp [List.inits_append]
  cases cs with
  | nil => cases c <;> first | exact absurd rfl hc | rfl
  | cons c' cs =>
    cases c' with
    | top =>
      change (cs ++ [c]).inits.reverse.map _ = _ :: cs.inits.reverse.map _
      rw [hinits, List.map_cons]
      rfl
    | _ => exact hinits (_ :: cs)

theorem fronts_eq_cons (cs : List Component) : fronts cs = cs :: (fronts cs).tail := by
  have hinits : ∀ cs : List Component, cs.inits.reverse = cs :: cs.inits.reverse.tail := by
    intro cs
    induction cs using List.reverseRecOn with
    | nil => rfl
    | append_singleton cs c _ => simp [List.inits_append]
  cases cs with
  | nil => rfl
  | cons c cs =>
    cases c with
    | top =>
      rw [fronts, hinits cs]
      rfl
    | _ => exact hinits (_ :: cs)

theorem mem_fronts_iff {front cs : List Component} :
    front ∈ fronts cs ↔ front <+: cs ∧ (cs.head? = some .top → front ≠ []) := by
  cases cs with
  | nil => simp [fronts]
  | cons c cs =>
    cases c with
    | top =>
      simp only [fronts, List.mem_map, List.mem_reverse, List.mem_inits, List.head?_cons]
      constructor
      · rintro ⟨rest, hrest, rfl⟩
        exact ⟨List.cons_prefix_cons.2 ⟨rfl, hrest⟩, by simp⟩
      · rintro ⟨hbegins, hne⟩
        obtain ⟨c, rest, rfl⟩ := List.exists_cons_of_ne_nil (hne trivial)
        obtain ⟨rfl, hrest⟩ := List.cons_prefix_cons.1 hbegins
        exact ⟨rest, hrest, rfl⟩
    | _ =>
      simp only [fronts, List.mem_reverse, List.mem_inits]
      simp

/-- Fronts of fronts are fronts. -/
theorem fronts_subset {front cs : List Component} (h : front ∈ fronts cs) :
    fronts front ⊆ fronts cs := by
  intro shorter hshorter
  obtain ⟨hbegins, hne⟩ := mem_fronts_iff.1 h
  obtain ⟨hbegins', hne'⟩ := mem_fronts_iff.1 hshorter
  refine mem_fronts_iff.2 ⟨hbegins'.trans hbegins, fun htop => hne' ?_⟩
  obtain ⟨behind, rfl⟩ := hbegins
  rwa [List.head?_append_of_ne_nil _ (hne htop)] at htop

/-- Where a path ends in names, these are taken off first. -/
theorem fronts_append_names (front : List Component) (names : List String) :
    fronts (front ++ names.map .name) =
      names.inits.reverse.map (fun ns => front ++ ns.map .name) ++ (fronts front).tail := by
  induction names using List.reverseRecOn with
  | nil =>
    rw [List.map_nil, List.append_nil, fronts_eq_cons]
    simp
  | append_singleton names name ih =>
    rw [List.map_append, List.map_singleton, ← List.append_assoc, fronts_concat (by simp), ih]
    simp [List.inits_append]

theorem map_components_ancestors (p : Path) : p.ancestors.map components = fronts p.components := by
  induction p using ancestors.induct with
  | case1 p q hq _ ih =>
    rw [ancestors_of_parent? hq, List.map_cons, ih]
    rcases parent?_cases p with ⟨hnone, _⟩ | ⟨q', c, hq', hcomponents, hc⟩
    · rw [hnone] at hq
      cases hq
    · rw [hq] at hq'
      rw [hcomponents, fronts_concat hc, Option.some.inj hq']
  | case2 p hnone =>
    rw [ancestors_of_none hnone, List.map_singleton]
    rcases parent?_cases p with ⟨_, hnil | htop⟩ | ⟨q, c, hq, _⟩
    · rw [hnil]
      rfl
    · rw [htop]
      rfl
    · rw [hnone] at hq
      cases hq

end Path

end Downlevel
