import Downlevel.Path.Extension
import Downlevel.Path.Order
import Mathlib.Data.List.Lex

/-!
# The order of paths

Paths are ordered component by component, and names by the numbers of their
characters. The test that paths are sorted by decides this order. Paths that lead
to different entries from one folder differ in their components.
-/

namespace Downlevel

/-! ### Names -/

def CharBefore (a b : Char) : Prop := a.toNat < b.toNat

/-- The name comes first at the first character that differs, or ends there. -/
def NameBefore (a b : String) : Prop := List.Lex CharBefore a.toList b.toList

instance : Std.Trichotomous CharBefore where
  trichotomous a b hab hba := Char.toNat_inj.1 (by unfold CharBefore at hab hba; omega)

instance : Std.Trichotomous NameBefore where
  trichotomous _ _ hab hba := String.toList_inj.1 (Std.Trichotomous.trichotomous _ _ hab hba)

theorem NameBefore.trans {a b c : String} (hab : NameBefore a b) (hbc : NameBefore b c) :
    NameBefore a c :=
  List.lex_trans (fun h h' => Nat.lt_trans h h') hab hbc

theorem not_nameBefore_self (a : String) : ¬ NameBefore a a :=
  List.lex_irrefl (fun c => Nat.lt_irrefl c.toNat) a.toList

theorem charsLe_iff {as bs : List Char} :
    charsLe as bs = true ↔ as = bs ∨ List.Lex CharBefore as bs := by
  induction as generalizing bs with
  | nil => cases bs <;> simp [charsLe]
  | cons a as ih =>
    cases bs with
    | nil => simp [charsLe]
    | cons b bs =>
      rw [charsLe, List.cons_lex_cons_iff]
      by_cases hab : a = b
      · subst hab
        simp [ih, CharBefore]
      · simp [hab, CharBefore]

/-! ### Paths -/

def Component.Before : Component → Component → Prop
  | name a, name b => NameBefore a b
  | a, b => a.rank < b.rank

namespace Component

theorem Before.rank_le {a b : Component} (h : a.Before b) : a.rank ≤ b.rank := by
  cases a <;> cases b <;> first | exact Nat.le_refl _ | exact Nat.le_of_lt h

theorem before_of_rank_lt {a b : Component} (h : a.rank < b.rank) : a.Before b := by
  cases a <;> cases b <;> first | exact h | exact absurd h (Nat.lt_irrefl _)

theorem not_before_self (a : Component) : ¬ a.Before a := by
  cases a with
  | name a => exact not_nameBefore_self a
  | _ => exact Nat.lt_irrefl _

/-- Components of the same rank are the same, or are both names. -/
theorem eq_or_names_of_rank_eq {a b : Component} (h : a.rank = b.rank) :
    a = b ∨ ∃ m n, a = name m ∧ b = name n := by
  cases a <;> cases b <;> first | exact Or.inl rfl | exact Or.inr ⟨_, _, rfl, rfl⟩ | cases h

theorem Before.trans {a b c : Component} (hab : a.Before b) (hbc : b.Before c) : a.Before c := by
  have hab' := hab.rank_le
  have hbc' := hbc.rank_le
  by_cases hlt : a.rank < c.rank
  · exact before_of_rank_lt hlt
  · -- All three are of one rank, so they are names.
    rcases eq_or_names_of_rank_eq (a := a) (b := b) (by omega) with rfl | ⟨m, n, rfl, rfl⟩
    · exact hbc
    · rcases eq_or_names_of_rank_eq (a := name n) (b := c) (by omega) with rfl | ⟨_, k, _, rfl⟩
      · exact hab
      · exact NameBefore.trans hab hbc

instance : Std.Trichotomous Before where
  trichotomous a b hab hba := by
    have hrank : a.rank = b.rank := by
      rcases Nat.lt_trichotomy a.rank b.rank with hlt | heq | hlt
      · exact absurd (before_of_rank_lt hlt) hab
      · exact heq
      · exact absurd (before_of_rank_lt hlt) hba
    rcases eq_or_names_of_rank_eq hrank with heq | ⟨m, n, rfl, rfl⟩
    · exact heq
    · rw [Std.Trichotomous.trichotomous (r := NameBefore) m n hab hba]

theorem le_iff_of_ne {a b : Component} (hne : a ≠ b) : a.le b = true ↔ a.Before b := by
  cases a <;> cases b <;>
    simp_all [Component.le, Before, rank, charsLe_iff, NameBefore, String.toList_inj]

end Component

theorem componentsLe_iff {as bs : List Component} :
    componentsLe as bs = true ↔ as = bs ∨ List.Lex Component.Before as bs := by
  induction as generalizing bs with
  | nil => cases bs <;> simp [componentsLe]
  | cons a as ih =>
    cases bs with
    | nil => simp [componentsLe]
    | cons b bs =>
      rw [componentsLe, List.cons_lex_cons_iff]
      by_cases hab : a = b
      · subst hab
        simp [ih, Component.not_before_self]
      · simp [hab, Component.le_iff_of_ne]

namespace Path

def Before (p q : Path) : Prop := List.Lex Component.Before p.components q.components

theorem Before.ne {p q : Path} (h : p.Before q) : p ≠ q := by
  rintro rfl
  exact List.lex_irrefl Component.not_before_self p.components h

theorem le_trans (p q r : Path) (hpq : p.le q = true) (hqr : q.le r = true) :
    p.le r = true := by
  unfold le at *
  rw [componentsLe_iff] at *
  rcases hpq with heq | hpq
  · rwa [heq]
  · rcases hqr with heq | hqr
    · exact Or.inr (heq ▸ hpq)
    · exact Or.inr (List.lex_trans Component.Before.trans hpq hqr)

theorem le_total (p q : Path) : (p.le q || q.le p) = true := by
  unfold le
  rw [Bool.or_eq_true, componentsLe_iff, componentsLe_iff]
  rcases trichotomous_of (List.Lex Component.Before) p.components q.components with
    hlt | heq | hlt
  · exact Or.inl (Or.inr hlt)
  · exact Or.inl (Or.inl heq)
  · exact Or.inr (Or.inr hlt)

/-- Sorting puts paths with different components in their order. -/
theorem pairwise_before_mergeSort {paths : List Path} (h : (paths.map components).Nodup) :
    (paths.mergeSort le).Pairwise Before := by
  have hperm := (List.mergeSort_perm paths le).map components
  have hsorted := List.pairwise_mergeSort le_trans le_total paths
  have hnodup := List.pairwise_map.1 (hperm.nodup_iff.2 h)
  exact (hsorted.and hnodup).imp fun hpq => (componentsLe_iff.1 hpq.1).resolve_left hpq.2

end Path

def IsName (piece : String) : Prop := Component.ofPiece? piece = some (.name piece)

instance : DecidablePred IsName := fun _ => inferInstanceAs (Decidable (_ = _))

namespace Path

theorem components_eq (p : Path) :
    p.components =
      (if p.rooted then [.top] else if p.pieces.head? = some "." then [.here] else []) ++
        p.pieces.filterMap Component.ofPiece? := by
  unfold components
  split_ifs with hrooted hdot
  · rfl
  · obtain ⟨rest, hrest⟩ := List.head?_eq_some_iff.1 hdot
    rw [hrest]
    rfl
  · split
    next rest hrest => simp [hrest] at hdot
    next => rfl

theorem head?_pieces_join {p : Path} {name : String} (hname : IsName name) :
    (p.join name).pieces.head? = some "." ↔ p.pieces.head? = some "." := by
  have hdot : name ≠ "." := by
    rintro rfl
    cases hname
  unfold join
  split
  next hlast =>
    obtain ⟨front, hfront⟩ := List.getLast?_eq_some_iff.1 hlast
    rw [hfront, List.dropLast_concat]
    cases front <;> simp [hdot]
  next => cases p.pieces <;> simp [hdot]

theorem filterMap_pieces_join {p : Path} {name : String} (hname : IsName name) :
    (p.join name).pieces.filterMap Component.ofPiece? =
      p.pieces.filterMap Component.ofPiece? ++ [.name name] := by
  have hsingle : [name].filterMap Component.ofPiece? = [.name name] := by
    rw [List.filterMap_cons_some hname, List.filterMap_nil]
  unfold join
  split
  next hlast =>
    obtain ⟨front, hfront⟩ := List.getLast?_eq_some_iff.1 hlast
    rw [hfront, List.dropLast_concat, List.filterMap_append, List.filterMap_append, hsingle]
    simp [Component.ofPiece?]
  next => rw [List.filterMap_append, hsingle]

theorem exists_pieces_join (p : Path) (name : String) :
    ∃ pieces, (p.join name).pieces = pieces ++ [name] := by
  rw [join]
  split <;> exact ⟨_, rfl⟩

theorem rooted_join (p : Path) (name : String) : (p.join name).rooted = p.rooted := by
  unfold join
  split <;> rfl

theorem components_join {p : Path} {name : String} (hname : IsName name) :
    (p.join name).components = p.components ++ [.name name] := by
  rw [components_eq, components_eq, rooted_join, filterMap_pieces_join hname, List.append_assoc]
  simp only [head?_pieces_join hname]

theorem components_joinAll {p : Path} {names : List String} (h : ∀ name ∈ names, IsName name) :
    (p.joinAll names).components = p.components ++ names.map .name := by
  unfold joinAll
  induction names generalizing p with
  | nil => simp
  | cons name names ih =>
    rw [List.foldl_cons, ih fun n hn => h n (List.mem_cons_of_mem _ hn),
      components_join (h name List.mem_cons_self), List.append_assoc]
    rfl

theorem joinAll_inj {p : Path} {as bs : List String} (has : ∀ name ∈ as, IsName name)
    (hbs : ∀ name ∈ bs, IsName name)
    (h : (p.joinAll as).components = (p.joinAll bs).components) : as = bs := by
  have hcomponents : p.components ++ as.map .name = p.components ++ bs.map .name := by
    rw [← components_joinAll has, ← components_joinAll hbs, h]
  apply List.map_injective_iff.2 _ (List.append_cancel_left hcomponents)
  intro a b hab
  exact Component.name.inj hab

end Path

/-! ### Extensions -/

theorem extension?_eq_some_iff {name ext : String} :
    extension? name = some ext ↔
      ∃ stem, stem ≠ "" ∧ name = stem ++ "." ++ ext ∧ '.' ∉ ext.toList := by
  unfold extension?
  dsimp only
  constructor
  · intro h
    split at h
    next dot last rest hrest =>
      have hext : ext.toList.reverse = name.toList.reverse.takeWhile (· != '.') := by
        rw [← Option.some.inj h, String.toList_ofList, List.reverse_reverse]
      have hdot : dot = '.' := by
        have hhead := List.head_dropWhile_not (· != '.')
          (show name.toList.reverse.dropWhile (· != '.') ≠ [] by simp [hrest])
        simpa [hrest] using hhead
      have hname : name.toList.reverse = ext.toList.reverse ++ '.' :: last :: rest := by
        rw [hdot] at hrest
        rw [hext, ← hrest, List.takeWhile_append_dropWhile]
      refine ⟨String.ofList (last :: rest).reverse, by simp, ?_, ?_⟩
      · apply String.toList_inj.1
        rw [← List.reverse_inj, hname]
        simp
      · intro hmem
        rw [← List.mem_reverse, hext] at hmem
        simpa using List.all_eq_true.1 List.all_takeWhile _ hmem
    next => cases h
  · rintro ⟨stem, hstem, rfl, hdot⟩
    have hall : ∀ c ∈ ext.toList.reverse, (c != '.') = true := by
      intro c hc
      rw [bne_iff_ne]
      rintro rfl
      exact hdot (List.mem_reverse.1 hc)
    have hbackwards : (stem ++ "." ++ ext).toList.reverse =
        ext.toList.reverse ++ '.' :: stem.toList.reverse := by simp
    rw [hbackwards, List.dropWhile_append_of_pos hall, List.takeWhile_append_of_pos hall,
      List.dropWhile_cons_of_neg (by simp), List.takeWhile_cons_of_neg (by simp)]
    cases hreverse : stem.toList.reverse with
    | nil => exact absurd (by simpa using hreverse) hstem
    | cons last rest => simp

/-- The path ends in a name with one of the extensions, up to the case of ASCII letters. A dot at
the front of a name starts no extension. -/
def Path.Carries (p : Path) (extensions : List String) : Prop :=
  ∃ stem ext, p.fileName? = some (stem ++ "." ++ ext) ∧ stem ≠ "" ∧ '.' ∉ ext.toList ∧
    ∃ e ∈ extensions, lowercase e = lowercase ext

theorem Path.hasExtension_iff {p : Path} {extensions : List String} :
    p.hasExtension extensions = true ↔ p.Carries extensions := by
  unfold hasExtension Carries
  constructor
  · intro h
    split at h
    next ext hext =>
      obtain ⟨name, hname, hext⟩ := Option.bind_eq_some_iff.1 hext
      obtain ⟨stem, hstem, rfl, hdot⟩ := extension?_eq_some_iff.1 hext
      exact ⟨stem, ext, hname, hstem, hdot, by simpa using h⟩
    next => cases h
  · rintro ⟨stem, ext, hname, hstem, hdot, he⟩
    rw [hname, Option.bind_some, extension?_eq_some_iff.2 ⟨stem, hstem, rfl, hdot⟩]
    simpa using he

end Downlevel
