import Downlevel.Text.Cut

/-!
# What a cut yields

Every cut is described by the bytes it yields and by the one condition under
which it yields them: both ends are boundaries, in order. What lies behind a
position has no say in whether the position is a boundary.
-/

namespace Downlevel.Text

theorem isBoundary_iff {s : String} {n : Nat} :
    isBoundary s n = true ↔ (⟨n⟩ : String.Pos.Raw).IsValid s :=
  String.Pos.Raw.isValid_eq_true_iff

theorem isBoundary_zero (s : String) : isBoundary s 0 = true :=
  isBoundary_iff.2 String.Pos.Raw.isValid_zero

theorem isBoundary_utf8ByteSize (s : String) : isBoundary s s.utf8ByteSize = true :=
  isBoundary_iff.2 String.Pos.Raw.isValid_rawEndPos

theorem le_utf8ByteSize_of_isBoundary {s : String} {n : Nat} (h : isBoundary s n = true) :
    n ≤ s.utf8ByteSize :=
  (isBoundary_iff.1 h).le_utf8ByteSize

/-- Two texts that agree up to a position have the same boundaries up to there. -/
theorem isBoundary_of_extract_eq {s t : String} {n : Nat} (ht : n ≤ t.utf8ByteSize)
    (heq : s.toByteArray.extract 0 n = t.toByteArray.extract 0 n) (h : isBoundary s n = true) :
    isBoundary t n = true := by
  rw [isBoundary_iff, String.Pos.Raw.isValid_iff_isValidUTF8_extract_zero]
  refine ⟨ht, ?_⟩
  rw [← heq]
  exact (isBoundary_iff.1 h).isValidUTF8_extract_zero

theorem pos?_eq_dite (s : String) (n : Nat) :
    s.pos? ⟨n⟩ =
      if h : isBoundary s n = true then some (s.pos ⟨n⟩ (isBoundary_iff.1 h)) else none := by
  by_cases h : isBoundary s n = true
  · have hs : String.Pos.Raw.isValidForSlice s.toSlice ⟨n⟩ = true :=
      String.Pos.Raw.isValidForSlice_eq_true_iff.2 (isBoundary_iff.1 h).toSlice
    rw [dif_pos h, String.pos?, String.Slice.pos?, dif_pos hs]
    rfl
  · have hs : ¬ String.Pos.Raw.isValidForSlice s.toSlice ⟨n⟩ = true := fun hs =>
      h (isBoundary_iff.2 (String.Pos.Raw.isValidForSlice_eq_true_iff.1 hs).ofSlice)
    rw [dif_neg h, String.pos?, String.Slice.pos?, dif_neg hs]
    rfl

/-- A cut yields the bytes between its ends, and fails only if its ends are
no boundaries or not in order. -/
theorem slice?_eq_some_iff {s t : String} {start stop : Nat} :
    slice? s start stop = some t ↔
      isBoundary s start = true ∧ isBoundary s stop = true ∧ start ≤ stop ∧
        t.toByteArray = s.toByteArray.extract start stop := by
  rw [slice?, pos?_eq_dite, pos?_eq_dite]
  by_cases hstart : isBoundary s start = true
  · by_cases hstop : isBoundary s stop = true
    · rw [dif_pos hstart, dif_pos hstop]
      by_cases hle : start ≤ stop
      · have hpos : s.pos ⟨start⟩ (isBoundary_iff.1 hstart) ≤
            s.pos ⟨stop⟩ (isBoundary_iff.1 hstop) := hle
        simp only [if_pos hpos, Option.some.injEq, hstart, hstop, hle, true_and]
        rw [← String.toByteArray_inj, String.toByteArray_extract, eq_comm]
        rfl
      · have hpos : ¬ s.pos ⟨start⟩ (isBoundary_iff.1 hstart) ≤
            s.pos ⟨stop⟩ (isBoundary_iff.1 hstop) := hle
        simp [if_neg hpos, hle]
    · simp [hstop]
  · simp [hstart]

theorem exists_slice? {s : String} {start stop : Nat} (hstart : isBoundary s start = true)
    (hstop : isBoundary s stop = true) (hle : start ≤ stop) :
    ∃ t, slice? s start stop = some t ∧
      t.toByteArray = s.toByteArray.extract start stop := by
  refine ⟨s.extract (s.pos ⟨start⟩ (isBoundary_iff.1 hstart))
    (s.pos ⟨stop⟩ (isBoundary_iff.1 hstop)), ?_, rfl⟩
  exact slice?_eq_some_iff.2 ⟨hstart, hstop, hle, rfl⟩

theorem slice?_self {s : String} {n : Nat} (h : isBoundary s n = true) :
    slice? s n n = some "" := by
  refine slice?_eq_some_iff.2 ⟨h, h, Nat.le_refl n, ?_⟩
  rw [ByteArray.extract_same]
  rfl

/-- Two cuts that meet make one. -/
theorem slice?_append {s a b : String} {start mid stop : Nat}
    (ha : slice? s start mid = some a) (hb : slice? s mid stop = some b) :
    slice? s start stop = some (a ++ b) := by
  obtain ⟨hstart, _, hsm, hab⟩ := slice?_eq_some_iff.1 ha
  obtain ⟨_, hstop, hms, hbb⟩ := slice?_eq_some_iff.1 hb
  refine slice?_eq_some_iff.2 ⟨hstart, hstop, Nat.le_trans hsm hms, ?_⟩
  rw [String.toByteArray_append, hab, hbb,
    ← ByteArray.extract_eq_extract_append_extract mid hsm hms]

/-- A replacement keeps all bytes in front of it and all behind it. -/
theorem exists_replace? {s : String} {start stop : Nat} (hstart : isBoundary s start = true)
    (hstop : isBoundary s stop = true) (hle : start ≤ stop) (new : String) :
    ∃ t, replace? s start stop new = some t ∧
      t.toByteArray = s.toByteArray.extract 0 start ++ new.toByteArray ++
        s.toByteArray.extract stop s.utf8ByteSize := by
  obtain ⟨before, hbefore, hb⟩ := exists_slice? (isBoundary_zero s) hstart (Nat.zero_le start)
  obtain ⟨inside, hinside, _⟩ := exists_slice? hstart hstop hle
  obtain ⟨after, hafter, ha⟩ := exists_slice? hstop (isBoundary_utf8ByteSize s)
    (le_utf8ByteSize_of_isBoundary hstop)
  refine ⟨before ++ new ++ after, ?_, ?_⟩
  · simp only [replace?, hbefore, hinside, hafter]
  · rw [String.toByteArray_append, String.toByteArray_append, hb, ha]

end Downlevel.Text
