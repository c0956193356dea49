import Downlevel.Text.Lines
import Mathlib.Algebra.Group.Nat.Defs
import Mathlib.Data.List.Basic

/-!
# Lines and columns, counted in bytes

The search for a line halves the starts of lines. Whether it ends at a start or
between two, it comes to the number of lines that have begun by then. A newline is
one byte in the UTF-8 form of a text, and no byte of any other character looks like
it. So these lines can be counted in the bytes before the one searched for, and the
last of them begins right behind the last newline there. Line and column together
give the byte back, also past the end.
-/

namespace Downlevel.Text

def newline : UInt8 := 10

def bytes (s : String) : List UInt8 := s.toByteArray.data.toList

theorem bytes_eq (s : String) : bytes s = s.toList.flatMap String.utf8EncodeChar := by
  rw [bytes, ← String.utf8Encode_toList, List.utf8Encode, List.data_toByteArray]

/-! ### The search for a line -/

/-- What a search in an increasing list is to answer: where the number stands, or where it
belongs. -/
inductive Located (xs : List Nat) (x : Nat) : Except Nat Nat → Prop
  | found {i : Nat} (here : xs[i]? = some x) : Located xs x (.ok i)
  | missing {i : Nat} (length : i ≤ xs.length) (before : ∀ y ∈ xs.take i, y < x)
      (behind : ∀ y ∈ xs.drop i, x < y) : Located xs x (.error i)

theorem lt_of_getElem? {xs : List Nat} (h : xs.Pairwise (· < ·)) {i y : Nat}
    (hy : xs[i]? = some y) : (∀ z ∈ xs.take i, z < y) ∧ ∀ z ∈ xs.drop (i + 1), y < z := by
  obtain ⟨hi, rfl⟩ := List.getElem?_eq_some_iff.1 hy
  have hsplit : (xs.take i ++ xs[i] :: xs.drop (i + 1)).Pairwise (· < ·) := by
    rwa [← List.drop_eq_getElem_cons, List.take_append_drop]
  obtain ⟨_, hbehind, hbefore⟩ := List.pairwise_append.1 hsplit
  exact ⟨fun z hz => hbefore z hz _ List.mem_cons_self, (List.pairwise_cons.1 hbehind).1⟩

/-- Halving keeps all that lies before the part searched smaller than the number, and all that lies
behind it larger. -/
theorem located_searchBetween {xs : List Nat} (h : xs.Pairwise (· < ·)) {x low high : Nat}
    (hle : low ≤ high) (hlength : high ≤ xs.length) (hbefore : ∀ y ∈ xs.take low, y < x)
    (hbehind : ∀ y ∈ xs.drop high, x < y) : Located xs x (searchBetween xs x low high) := by
  have hget : ∀ i, i < high → xs[i]? = some (xs.getD i 0) := by
    intro i hi
    rw [List.getD_eq_getElem?_getD, List.getElem?_eq_getElem (by omega)]
    rfl
  fun_induction searchBetween xs x low high with
  | case1 low high hlt middle y heq =>
    have hmiddle := hget middle (by omega)
    exact .found (heq ▸ hmiddle)
  | case2 low high hlt middle y hne hy ih =>
    have hmiddle := hget middle (by omega)
    refine ih (by omega) hlength (fun z hz => ?_) hbehind hget
    rw [List.take_add_one, hmiddle, List.mem_append] at hz
    rcases hz with hz | hz
    · exact Nat.lt_trans ((lt_of_getElem? h hmiddle).1 z hz) hy
    · rw [List.mem_singleton.1 hz]
      exact hy
  | case3 low high hlt middle y hne hy ih =>
    have hmiddle := hget middle (by omega)
    refine ih (by omega) (by omega) hbefore (fun z hz => ?_) fun i hi => hget i (by omega)
    have hlt' : x < y := by omega
    obtain ⟨hmem, hy'⟩ := List.getElem?_eq_some_iff.1 hmiddle
    rw [List.drop_eq_getElem_cons hmem, hy', List.mem_cons] at hz
    rcases hz with rfl | hz
    · exact hlt'
    · exact Nat.lt_trans hlt' ((lt_of_getElem? h hmiddle).2 z hz)
  | case4 low high hlt =>
    obtain rfl : low = high := by omega
    exact .missing hlength hbefore hbehind

theorem located_search {xs : List Nat} (h : xs.Pairwise (· < ·)) (x : Nat) :
    Located xs x (search xs x) :=
  located_searchBetween h (Nat.zero_le _) (Nat.le_refl _) (by simp) (by simp)

theorem takeWhile_le_append {before behind : List Nat} {x : Nat} (hbefore : ∀ y ∈ before, y ≤ x)
    (hbehind : ∀ y ∈ behind, x < y) : (before ++ behind).takeWhile (· ≤ x) = before := by
  rw [List.takeWhile_append_of_pos fun y hy => decide_eq_true (hbefore y hy)]
  cases behind with
  | nil => simp
  | cons y behind =>
    have hy := hbehind y List.mem_cons_self
    rw [List.takeWhile_cons_of_neg (by simpa using hy), List.append_nil]

/-- One more than the position of a number that is there, and the position where one belongs that
is not, both count the numbers up to it. -/
theorem Located.length_takeWhile {xs : List Nat} (h : xs.Pairwise (· < ·)) {x : Nat}
    {answer : Except Nat Nat} (hanswer : Located xs x answer) :
    lineFound answer = (xs.takeWhile (· ≤ x)).length := by
  cases hanswer with
  | @found i here =>
    obtain ⟨hbefore, hbehind⟩ := lt_of_getElem? h here
    obtain ⟨hi, rfl⟩ := List.getElem?_eq_some_iff.1 here
    have hupTo : ∀ y ∈ xs.take (i + 1), y ≤ xs[i] := by
      intro y hy
      rw [List.take_add_one, here, List.mem_append] at hy
      rcases hy with hy | hy
      · exact Nat.le_of_lt (hbefore y hy)
      · exact Nat.le_of_eq (List.mem_singleton.1 hy)
    have hwhile := takeWhile_le_append hupTo hbehind
    rw [List.take_append_drop] at hwhile
    rw [lineFound, hwhile, List.length_take]
    omega
  | @missing i length before behind =>
    have hwhile := takeWhile_le_append (fun y hy => Nat.le_of_lt (before y hy)) behind
    rw [List.take_append_drop] at hwhile
    rw [lineFound, hwhile, List.length_take]
    omega

/-! ### Newlines -/

theorem newline_ne_ofNat {n : Nat} (hlt : n < 256) (hne : n ≠ 10) : newline ≠ UInt8.ofNat n := by
  intro heq
  have hnat := congrArg UInt8.toNat heq
  rw [UInt8.toNat_ofNat_of_lt' hlt] at hnat
  exact hne hnat.symm

theorem newline_notMem_utf8EncodeChar {c : Char} (h : c ≠ '\n') :
    newline ∉ String.utf8EncodeChar c := by
  have hval : c.val.toNat ≠ 10 := fun hval => h (Char.ext (UInt32.toNat_inj.1 hval))
  unfold String.utf8EncodeChar
  dsimp only
  -- Every byte of a longer form has its highest bit set.
  split_ifs with h₁ h₂ h₃ <;> simp only [List.mem_cons, List.not_mem_nil, or_false, not_or]
  · exact newline_ne_ofNat (by omega) hval
  · exact ⟨newline_ne_ofNat (by omega) (by omega), newline_ne_ofNat (by omega) (by omega)⟩
  · exact ⟨newline_ne_ofNat (by omega) (by omega), newline_ne_ofNat (by omega) (by omega),
      newline_ne_ofNat (by omega) (by omega)⟩
  · exact ⟨newline_ne_ofNat (by omega) (by omega), newline_ne_ofNat (by omega) (by omega),
      newline_ne_ofNat (by omega) (by omega), newline_ne_ofNat (by omega) (by omega)⟩

def newlinesBefore (s : String) (offset : Nat) : List Nat :=
  ((bytes s).take offset).findIdxs (· == newline)

theorem startsAfter_eq (offset : Nat) (cs : List Char) :
    startsAfter offset cs =
      ((cs.flatMap String.utf8EncodeChar).findIdxs (· == newline) offset).map (· + 1) := by
  induction cs generalizing offset with
  | nil => rfl
  | cons c cs ih =>
    rw [startsAfter, List.flatMap_cons, List.findIdxs_append, String.length_utf8EncodeChar,
      List.map_append, ih]
    by_cases hc : c = '\n'
    · subst hc
      rfl
    · have hnone : (String.utf8EncodeChar c).findIdxs (· == newline) offset = [] := by
        rw [List.findIdxs_eq_nil_iff]
        intro b hb
        rw [beq_eq_false_iff_ne]
        rintro rfl
        exact newline_notMem_utf8EncodeChar hc hb
      rw [if_neg hc, hnone]
      rfl

theorem lineStarts_eq (s : String) :
    lineStarts s = 0 :: ((bytes s).findIdxs (· == newline)).map (· + 1) := by
  rw [lineStarts, startsAfter_eq, bytes_eq]

theorem pairwise_lineStarts (s : String) : (lineStarts s).Pairwise (· < ·) := by
  rw [lineStarts_eq, List.pairwise_cons, List.pairwise_map]
  constructor
  · intro start hstart
    obtain ⟨p, _, rfl⟩ := List.mem_map.1 hstart
    exact Nat.succ_pos p
  · exact List.pairwise_findIdxs.imp fun hlt => Nat.succ_lt_succ hlt

theorem mem_newlinesBefore {s : String} {offset p : Nat} :
    p ∈ newlinesBefore s offset ↔ p < offset ∧ (bytes s)[p]? = some newline := by
  rw [newlinesBefore, List.mem_findIdxs_iff_exists_getElem_pos]
  simp only [List.length_take, List.getElem_take, beq_iff_eq, List.getElem?_eq_some_iff]
  constructor
  · rintro ⟨hlt, heq⟩
    exact ⟨by omega, by omega, heq⟩
  · rintro ⟨hlt, hlen, heq⟩
    exact ⟨by omega, heq⟩

theorem exists_lineStarts_eq_append (s : String) (offset : Nat) :
    ∃ later, lineStarts s = (0 :: (newlinesBefore s offset).map (· + 1)) ++ later ∧
      ∀ start ∈ later, offset < start := by
  have hsplit : (bytes s).findIdxs (· == newline) = newlinesBefore s offset ++
      ((bytes s).drop offset).findIdxs (· == newline) ((bytes s).take offset).length := by
    rw [newlinesBefore]
    conv_lhs => rw [← List.take_append_drop offset (bytes s)]
    rw [List.findIdxs_append, Nat.zero_add]
  refine ⟨_, by rw [lineStarts_eq, hsplit, List.map_append, List.cons_append], ?_⟩
  intro start hstart
  obtain ⟨p, hp, rfl⟩ := List.mem_map.1 hstart
  -- If there are bytes behind `offset`, then exactly `offset` bytes lie before them.
  by_cases hlen : offset ≤ (bytes s).length
  · have hge := List.ge_of_mem_findIdxs p hp
    rw [List.length_take] at hge
    omega
  · rw [List.drop_eq_nil_of_le (by omega)] at hp
    cases hp

/-- The lines that have begun by a byte, each by where it begins. -/
theorem takeWhile_lineStarts (s : String) (offset : Nat) :
    (lineStarts s).takeWhile (· ≤ offset) = 0 :: (newlinesBefore s offset).map (· + 1) := by
  obtain ⟨later, hsplit, hlater⟩ := exists_lineStarts_eq_append s offset
  have hbegun : ∀ start ∈ 0 :: (newlinesBefore s offset).map (· + 1), start ≤ offset := by
    intro start hstart
    rcases List.mem_cons.1 hstart with rfl | hstart
    · exact Nat.zero_le offset
    · obtain ⟨p, hp, rfl⟩ := List.mem_map.1 hstart
      exact (mem_newlinesBefore.1 hp).1
  rw [hsplit]
  exact takeWhile_le_append hbegun hlater

/-! ### Places -/

/-- The search comes to the number of lines that have begun by the byte. -/
theorem lineOf_eq_length (s : String) (offset : Nat) :
    lineOf s offset = ((lineStarts s).takeWhile (· ≤ offset)).length :=
  (located_search (pairwise_lineStarts s) offset).length_takeWhile (pairwise_lineStarts s)

theorem lineOf_eq (s : String) (offset : Nat) :
    lineOf s offset = 1 + ((bytes s).take offset).count newline := by
  rw [lineOf_eq_length, takeWhile_lineStarts, List.length_cons, List.length_map, newlinesBefore,
    List.length_findIdxs, List.count, Nat.add_comm]

/-- The line of byte `offset` begins at `start`: right behind the last newline before that byte, or
at the front of the text. -/
structure LineBegins (s : String) (offset start : Nat) : Prop where
  start_le : start ≤ offset
  front : start = 0 ∨ ∃ p, start = p + 1 ∧ (bytes s)[p]? = some newline
  no_newline : ∀ p, start ≤ p → p < offset → (bytes s)[p]? ≠ some newline

theorem getElem?_lineStarts_of_lt {s : String} {offset n : Nat} (h : n < lineOf s offset) :
    (lineStarts s)[n]? = (0 :: (newlinesBefore s offset).map (· + 1))[n]? := by
  obtain ⟨rest, hrest⟩ := List.takeWhile_prefix (l := lineStarts s) (fun start => start ≤ offset)
  rw [lineOf_eq_length] at h
  rw [← hrest, List.getElem?_append_left h, takeWhile_lineStarts]

theorem exists_lineBegins (s : String) (offset : Nat) :
    ∃ start, (lineStarts s)[lineOf s offset - 1]? = some start ∧ LineBegins s offset start := by
  have hpos : lineOf s offset - 1 < lineOf s offset := by
    rw [lineOf_eq]
    omega
  have hlength : lineOf s offset - 1 = (newlinesBefore s offset).length := by
    rw [lineOf_eq_length, takeWhile_lineStarts, List.length_cons, List.length_map,
      Nat.add_sub_cancel]
  rw [getElem?_lineStarts_of_lt hpos, hlength]
  have hmem : ∀ p, p < offset → (bytes s)[p]? = some newline → p ∈ newlinesBefore s offset :=
    fun p hlt hp => mem_newlinesBefore.2 ⟨hlt, hp⟩
  rcases List.eq_nil_or_concat' (newlinesBefore s offset) with hnil | ⟨before, last, hconcat⟩
  · rw [hnil] at hmem ⊢
    refine ⟨0, rfl, Nat.zero_le offset, Or.inl rfl, fun p _ hlt hp => ?_⟩
    cases hmem p hlt hp
  · have hbefore : last ∈ newlinesBefore s offset := hconcat ▸ List.mem_concat_self
    have hlast := mem_newlinesBefore.1 hbefore
    have hordered : (before ++ [last]).Pairwise (· < ·) := hconcat ▸ List.pairwise_findIdxs
    rw [hconcat] at hmem ⊢
    refine ⟨last + 1, by simp, hlast.1, Or.inr ⟨last, rfl, hlast.2⟩, fun p hle hlt hp => ?_⟩
    rcases List.mem_append.1 (hmem p hlt hp) with hp | hp
    · have hlt' : p < last :=
        (List.pairwise_append.1 hordered).2.2 p hp last (List.mem_singleton_self last)
      omega
    · have heq : p = last := List.mem_singleton.1 hp
      omega

theorem column_placeOf {s : String} {offset start : Nat}
    (h : (lineStarts s)[lineOf s offset - 1]? = some start) :
    (placeOf s offset).column = offset - start + 1 := by
  rw [placeOf, List.getD_eq_getElem?_getD, h]
  rfl

def Place.Before (p q : Place) : Prop :=
  p.line < q.line ∨ (p.line = q.line ∧ p.column < q.column)

theorem placeOf_before {s : String} {earlier offset : Nat} (h : earlier < offset) :
    (placeOf s earlier).Before (placeOf s offset) := by
  have hle : lineOf s earlier ≤ lineOf s offset := by
    rw [lineOf_eq, lineOf_eq]
    exact Nat.add_le_add_left ((List.take_sublist_take_left (Nat.le_of_lt h)).count_le newline) 1
  rcases Nat.lt_or_eq_of_le hle with hlt | heq
  · exact Or.inl hlt
  · refine Or.inr ⟨heq, ?_⟩
    -- Both bytes are counted from the start of the same line.
    obtain ⟨start, hstart, hbegins⟩ := exists_lineBegins s earlier
    rw [column_placeOf hstart, column_placeOf (heq ▸ hstart)]
    have hstart_le := hbegins.start_le
    omega

/-- The line of a byte is one more than the number of newlines before it, and its column is one
more than the number of bytes between the last of them, or the front of the text, and the byte.
Every search that answers as it should comes to this line, whether it ends at a start or between
two. Nothing is cut off or runs over on the way, the start of the line and the column give the byte
back, and a later byte has a later place. -/
theorem placeOf_counts_bytes (s : String) {offset : Nat} (h : offset < 2 ^ 64 - 1) :
    (placeOf s offset).line = 1 + ((bytes s).take offset).count newline ∧
      lineOf s offset = (placeOf s offset).line ∧
      (∀ answer, Located (lineStarts s) offset answer →
        lineFound answer = (placeOf s offset).line) ∧
      (placeOf s offset).line < 2 ^ 64 ∧ (placeOf s offset).column < 2 ^ 64 ∧
      (∃ start, (lineStarts s)[(placeOf s offset).line - 1]? = some start ∧
        LineBegins s offset start ∧ (placeOf s offset).column = 1 + (offset - start) ∧
        start + ((placeOf s offset).column - 1) = offset) ∧
      ∀ earlier, earlier < offset → (placeOf s earlier).Before (placeOf s offset) := by
  obtain ⟨start, hstart, hbegins⟩ := exists_lineBegins s offset
  have hstart_le := hbegins.start_le
  have hcolumn := column_placeOf hstart
  have hline : (placeOf s offset).line = 1 + ((bytes s).take offset).count newline :=
    lineOf_eq s offset
  have hcount : ((bytes s).take offset).count newline ≤ offset :=
    Nat.le_trans List.count_le_length (List.length_take_le offset (bytes s))
  refine ⟨hline, rfl, fun answer hanswer => ?_, by omega, by omega,
    ⟨start, hstart, hbegins, by omega, by omega⟩, fun earlier hlt => placeOf_before hlt⟩
  exact (hanswer.length_takeWhile (pairwise_lineStarts s)).trans (lineOf_eq_length s offset).symm

/-- Past the end, behind an empty line and a character of two bytes. The empty line begins at the
third byte. -/
theorem placeOf_counts_bytes_pastEnd :
    7 < 2 ^ 64 - 1 ∧ placeOf "é\n\na" 7 = ⟨3, 4⟩ ∧ placeOf "é\n\na" 3 = ⟨2, 1⟩ ∧
      (placeOf "é\n\na" 7).line = 1 + ((bytes "é\n\na").take 7).count newline ∧
      (placeOf "é\n\na" 3).Before (placeOf "é\n\na" 7) := by
  have hlt : 7 < 2 ^ 64 - 1 := by decide
  obtain ⟨hline, _, _, _, _, _, hbefore⟩ := placeOf_counts_bytes "é\n\na" hlt
  exact ⟨hlt, by decide +kernel, by decide +kernel, hline, hbefore 3 (by decide)⟩

end Downlevel.Text
