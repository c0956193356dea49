import Downlevel.Proofs.Splice
import Mathlib.Data.List.Chain

/-!
# Recording edits

A buffer holds edits that fit its text and of which no two overlap, however they
were offered. In the order of their starts, an insertion in front of the edit
that replaces what stands there, such edits stand in order and apart, so they
can always be spliced in. Sorting by start alone finds that order as long as no
insertion is recorded behind an edit with the same start. Edits that replace
something have different starts, and for them the order of recording does not
matter at all.
-/

namespace Downlevel

section Sorting

variable {α : Type} {le le' : α → α → Bool}

/-- Sorting puts an element in front of all later ones that it may precede, and of no other. -/
theorem mergeSort_cons_eq (htrans : ∀ a b c, le a b = true → le b c = true → le a c = true)
    (htotal : ∀ a b, (le a b || le b a) = true) (a : α) (l : List α) :
    (a :: l).mergeSort le =
      (l.mergeSort le).filter (fun b => !le a b) ++ a :: (l.mergeSort le).filter (le a) := by
  obtain ⟨before, after, hcons, hsort, hbefore⟩ := List.mergeSort_cons htrans htotal a l
  have hsorted := List.pairwise_mergeSort htrans htotal (a :: l)
  rw [hcons, List.pairwise_append] at hsorted
  have hafter : ∀ b ∈ after, le a b = true := (List.pairwise_cons.1 hsorted.2.1).1
  have hleft : (before ++ after).filter (fun b => !le a b) = before := by
    rw [List.filter_append, List.filter_eq_self.2 hbefore,
      List.filter_eq_nil_iff.2 fun b hb => by simp [hafter b hb], List.append_nil]
  have hright : (before ++ after).filter (le a) = after := by
    rw [List.filter_append, List.filter_eq_self.2 hafter,
      List.filter_eq_nil_iff.2 fun b hb => by simpa using hbefore b hb, List.nil_append]
  rw [hcons, hsort, hleft, hright]

/-- Sorting asks for the order of two elements only as they stand in the list. -/
theorem mergeSort_congr (htrans : ∀ a b c, le a b = true → le b c = true → le a c = true)
    (htotal : ∀ a b, (le a b || le b a) = true)
    (htrans' : ∀ a b c, le' a b = true → le' b c = true → le' a c = true)
    (htotal' : ∀ a b, (le' a b || le' b a) = true) {l : List α}
    (h : l.Pairwise fun a b => le a b = le' a b) : l.mergeSort le = l.mergeSort le' := by
  induction l with
  | nil => simp
  | cons a l ih =>
    obtain ⟨ha, hl⟩ := List.pairwise_cons.1 h
    have hagree : ∀ b ∈ l.mergeSort le', le a b = le' a b := fun b hb =>
      ha b (List.mem_mergeSort.1 hb)
    rw [mergeSort_cons_eq htrans htotal, mergeSort_cons_eq htrans' htotal', ih hl,
      List.filter_congr hagree, List.filter_congr fun b hb => by rw [hagree b hb]]

end Sorting

namespace Edit

def isInsertion (e : Edit) : Bool := e.start == e.stop

/-- The order of edits in the text: by start, and an insertion in front of an edit that
replaces what stands there. -/
def precedes (a b : Edit) : Bool :=
  a.start < b.start || (a.start == b.start && (a.isInsertion || !b.isInsertion))

theorem isInsertion_iff {e : Edit} : e.isInsertion = true ↔ e.start = e.stop := by
  simp [isInsertion]

theorem precedes_iff {a b : Edit} : a.precedes b = true ↔
    a.start < b.start ∨ a.start = b.start ∧ (a.start = a.stop ∨ b.start ≠ b.stop) := by
  simp [precedes, isInsertion]

theorem precedes_trans (a b c : Edit) (hab : a.precedes b = true) (hbc : b.precedes c = true) :
    a.precedes c = true := by
  rw [precedes_iff] at *
  omega

theorem precedes_total (a b : Edit) : (a.precedes b || b.precedes a) = true := by
  rw [Bool.or_eq_true, precedes_iff, precedes_iff]
  omega

theorem overlaps_eq_false_iff {a b : Edit} :
    a.overlaps b = false ↔ b.stop ≤ a.start ∨ a.stop ≤ b.start := by
  simp only [overlaps, Bool.and_eq_false_iff, decide_eq_false_iff_not, Nat.not_lt]

theorem overlaps_comm (a b : Edit) : a.overlaps b = b.overlaps a := by
  rw [overlaps, overlaps, Bool.and_comm]

end Edit

namespace Buffer

variable {b b' : Buffer} {e : Edit}

theorem misplaced?_eq_none_iff (source : String) (index : Nat) (e : Edit) :
    misplaced? source index e = none ↔ e.Fits source := by
  unfold misplaced?
  constructor
  · intro h
    split_ifs at h with hbounds hboundary
    exact ⟨by omega, hboundary.1, hboundary.2⟩
  · intro h
    have hle := h.start_le_stop
    have hlen := h.stop_le
    rw [if_neg (by omega), if_pos ⟨h.start_isBoundary, h.stop_isBoundary⟩]

/-- Exactly the edits that fit the text and overlap no recorded one are recorded. -/
theorem record_eq_ok_iff : b.record e = .ok b' ↔
    e.Fits b.source ∧ (∀ f ∈ b.edits, f.overlaps e = false) ∧
      b' = { b with edits := b.edits ++ [e] } := by
  rw [← misplaced?_eq_none_iff b.source b.edits.length, ← List.findIdx?_eq_none_iff, record]
  cases misplaced? b.source b.edits.length e with
  | some f => simp
  | none =>
    cases b.edits.findIdx? (·.overlaps e) with
    | some i => simp
    | none => simp [eq_comm]

/-! ### Consistent buffers -/

structure Consistent (b : Buffer) : Prop where
  fits : ∀ e ∈ b.edits, e.Fits b.source
  apart : b.edits.Pairwise fun a e => a.overlaps e = false

theorem consistent_nil (source : String) : Consistent ⟨source, []⟩ := by
  constructor
  · intro e he
    cases he
  · exact List.Pairwise.nil

theorem consistent_concat_iff {source : String} {es : List Edit} :
    Consistent ⟨source, es ++ [e]⟩ ↔
      Consistent ⟨source, es⟩ ∧ e.Fits source ∧ ∀ f ∈ es, f.overlaps e = false := by
  constructor
  · rintro ⟨hfits, hapart⟩
    obtain ⟨hes, _, hbehind⟩ := List.pairwise_append.1 hapart
    exact ⟨⟨fun f hf => hfits f (List.mem_append_left _ hf), hes⟩, hfits e (by simp),
      fun f hf => hbehind f hf e List.mem_cons_self⟩
  · rintro ⟨⟨hfits, hapart⟩, he, hbehind⟩
    constructor
    · intro f hf
      rcases List.mem_append.1 hf with hf | hf
      · exact hfits f hf
      · rw [List.mem_singleton.1 hf]
        exact he
    · refine List.pairwise_append.2 ⟨hapart, List.pairwise_singleton _ _, fun f hf g hg => ?_⟩
      rw [List.mem_singleton.1 hg]
      exact hbehind f hf

theorem Consistent.record (h : b.Consistent) (hrecord : b.record e = .ok b') :
    b'.Consistent := by
  obtain ⟨hfits, hapart, rfl⟩ := record_eq_ok_iff.1 hrecord
  exact consistent_concat_iff.2 ⟨h, hfits, hapart⟩

/-- The recorded edits in the order of the text; insertions at the same place stay in the order
of recording. -/
def arranged (b : Buffer) : List Edit := b.edits.mergeSort Edit.precedes

theorem perm_arranged (b : Buffer) : b.arranged.Perm b.edits := List.mergeSort_perm _ _

theorem Consistent.perm {source : String} {es es' : List Edit} (h : Consistent ⟨source, es⟩)
    (hperm : es'.Perm es) : Consistent ⟨source, es'⟩ := by
  constructor
  · intro e he
    exact h.fits e (hperm.mem_iff.1 he)
  · exact (hperm.pairwise_iff fun hab => by rw [Edit.overlaps_comm, hab]).2 h.apart

/-- In the order of the text, the edits of a buffer stand in order and apart. -/
theorem Consistent.inOrder_arranged (h : b.Consistent) : Edit.InOrder b.arranged := by
  obtain ⟨hfits, hapart⟩ := h.perm b.perm_arranged
  have hsorted : b.arranged.Pairwise fun a e => a.precedes e = true :=
    List.pairwise_mergeSort Edit.precedes_trans Edit.precedes_total b.edits
  refine (hapart.and hsorted).imp_of_mem fun {a e} ha he hae => ?_
  have hle := (hfits a ha).start_le_stop
  have hle' := (hfits e he).start_le_stop
  have hfree := Edit.overlaps_eq_false_iff.1 hae.1
  have hbefore := Edit.precedes_iff.1 hae.2
  omega

/-- Sorting by start finds the order of the text, unless an insertion is recorded behind an
edit with the same start that replaces something. -/
theorem sorted_eq_arranged
    (h : b.edits.Pairwise fun a e =>
      a.isInsertion = false → e.isInsertion = true → a.start ≠ e.start) :
    b.sorted = b.arranged := by
  apply mergeSort_congr
  · intro a b c hab hbc
    simp only [decide_eq_true_eq] at *
    omega
  · intro a b
    simp only [Bool.or_eq_true, decide_eq_true_eq]
    omega
  · exact Edit.precedes_trans
  · exact Edit.precedes_total
  · refine h.imp fun {a e} hae => ?_
    rw [Bool.eq_iff_iff, decide_eq_true_eq, Edit.precedes_iff]
    rw [← Bool.not_eq_true, Edit.isInsertion_iff, Edit.isInsertion_iff] at hae
    omega

theorem Consistent.exists_result? (h : b.Consistent) (hsorted : b.sorted = b.arranged) :
    ∃ text, b.result? = some text ∧ text.toByteArray = splice b.source b.arranged := by
  rw [result?, hsorted]
  exact exists_applyAll? (fun e he => h.fits e (b.perm_arranged.mem_iff.1 he)) h.inOrder_arranged

/-! ### Edits that may be refused -/

/-- Offers an edit to the buffer. A refused edit leaves the buffer as it was. -/
def offer (b : Buffer) (e : Edit) : Buffer :=
  match b.record e with
  | .ok b' => b'
  | .error _ => b

def offers (source : String) (calls : List Edit) : Buffer :=
  calls.foldl offer ⟨source, []⟩

theorem offer_eq_or (b : Buffer) (e : Edit) :
    b.offer e = b ∨ b.record e = .ok (b.offer e) := by
  unfold offer
  cases b.record e with
  | error f => exact Or.inl rfl
  | ok b' => exact Or.inr rfl

theorem foldl_offer (h : b.Consistent) (calls : List Edit) :
    (calls.foldl offer b).Consistent ∧ (calls.foldl offer b).source = b.source := by
  induction calls generalizing b with
  | nil => exact ⟨h, rfl⟩
  | cons e calls ih =>
    rw [List.foldl_cons]
    rcases offer_eq_or b e with hkept | hrecord
    · rw [hkept]
      exact ih h
    · obtain ⟨hcalls, hsource⟩ := ih (h.record hrecord)
      refine ⟨hcalls, hsource.trans ?_⟩
      rw [(record_eq_ok_iff.1 hrecord).2.2]

/-- Whatever is offered to a buffer, the accepted edits can be arranged in order and apart. The
text with all of them made is the source with them spliced in, unless an insertion was accepted
behind an edit with the same start that replaces something. -/
theorem offers_spliced (source : String) (calls : List Edit) :
    (offers source calls).arranged.Perm (offers source calls).edits ∧
      Edit.InOrder (offers source calls).arranged ∧
      (((offers source calls).edits.Pairwise fun a e =>
          a.isInsertion = false → e.isInsertion = true → a.start ≠ e.start) →
        ∃ text, (offers source calls).result? = some text ∧
          text.toByteArray = splice source (offers source calls).arranged) := by
  obtain ⟨hconsistent, hsource⟩ := foldl_offer (consistent_nil source) calls
  refine ⟨perm_arranged _, hconsistent.inOrder_arranged, fun hlate => ?_⟩
  obtain ⟨text, htext, hsplice⟩ := hconsistent.exists_result? (sorted_eq_arranged hlate)
  refine ⟨text, htext, ?_⟩
  rw [hsplice, hsource]
  rfl

/-- An edit between two insertions, and two that are refused: one splits a character, one
overlaps. -/
def betweenInsertions : List Edit :=
  [⟨3, 3, ">", none⟩, ⟨2, 3, "x", none⟩, ⟨1, 1, "<", none⟩, ⟨1, 3, "e", none⟩, ⟨0, 4, "z", none⟩]

theorem offers_spliced_betweenInsertions :
    (offers "héllo" betweenInsertions).edits =
        [⟨3, 3, ">", none⟩, ⟨1, 1, "<", none⟩, ⟨1, 3, "e", none⟩] ∧
      ∃ text, (offers "héllo" betweenInsertions).result? = some text ∧
        text.toByteArray = splice "héllo" (offers "héllo" betweenInsertions).arranged := by
  obtain ⟨_, _, hresult⟩ := offers_spliced "héllo" betweenInsertions
  exact ⟨by decide +kernel, hresult (by decide +kernel)⟩

/-- An insertion that is accepted behind an edit with the same start is made first, and the edit
then replaces what was inserted: the insertion is lost and the replaced text stays, or the cut
falls inside a character and there is no text at all. -/
theorem result?_late_insertion :
    (offers "abc" [⟨0, 2, "X", none⟩, ⟨0, 0, "ij", none⟩]).result? = some "Xabc" ∧
      splice "abc" (offers "abc" [⟨0, 2, "X", none⟩, ⟨0, 0, "ij", none⟩]).arranged =
        "ijXc".toByteArray ∧
      (offers "abc" [⟨0, 1, "X", none⟩, ⟨0, 0, "é", none⟩]).result? = none := by
  have hlost : offers "abc" [⟨0, 2, "X", none⟩, ⟨0, 0, "ij", none⟩] =
      ⟨"abc", [⟨0, 2, "X", none⟩, ⟨0, 0, "ij", none⟩]⟩ := by rfl
  have hcut : offers "abc" [⟨0, 1, "X", none⟩, ⟨0, 0, "é", none⟩] =
      ⟨"abc", [⟨0, 1, "X", none⟩, ⟨0, 0, "é", none⟩]⟩ := by rfl
  rw [hlost, hcut]
  refine ⟨?_, ?_, ?_⟩
  · rw [result?, sorted, List.mergeSort_of_pairwise (by decide)]
    rfl
  · rw [arranged, mergeSort_cons_eq Edit.precedes_trans Edit.precedes_total,
      List.mergeSort_singleton]
    rfl
  · rw [result?, sorted, List.mergeSort_of_pairwise (by decide)]
    rfl

/-! ### Edits that replace something -/

/-- Records edits one by one, all of them or none. -/
def recordAll (source : String) (es : List Edit) : Except EditFault Buffer :=
  es.foldlM record ⟨source, []⟩

theorem recordAll_eq_ok_iff {source : String} {es : List Edit} :
    recordAll source es = .ok b ↔ Consistent ⟨source, es⟩ ∧ b = ⟨source, es⟩ := by
  induction es using List.reverseRecOn generalizing b with
  | nil =>
    change Except.ok _ = Except.ok b ↔ _
    rw [Except.ok.injEq, eq_comm]
    exact ⟨fun h => ⟨consistent_nil source, h⟩, fun h => h.2⟩
  | append_singleton es e ih =>
    have hstep : recordAll source (es ++ [e]) = recordAll source es >>= (·.record e) := by
      simp [recordAll]
    rw [hstep, consistent_concat_iff]
    cases hes : recordAll source es with
    | error f =>
      constructor
      · intro h
        cases h
      · rintro ⟨⟨h, _⟩, _⟩
        have hok := (ih (b := ⟨source, es⟩)).2 ⟨h, rfl⟩
        rw [hes] at hok
        cases hok
    | ok b₀ =>
      obtain ⟨h, rfl⟩ := ih.1 hes
      change record _ e = .ok b ↔ _
      rw [record_eq_ok_iff]
      exact ⟨fun ⟨he, hbehind, hb⟩ => ⟨⟨h, he, hbehind⟩, hb⟩,
        fun ⟨⟨_, he, hbehind⟩, hb⟩ => ⟨he, hbehind, hb⟩⟩

/-- Edits that replace something have different starts, so they are sorted in one way only. -/
theorem Consistent.pairwise_start_sorted (h : b.Consistent)
    (hwide : ∀ e ∈ b.edits, e.start < e.stop) :
    b.sorted = b.arranged ∧ b.sorted.Pairwise fun a e => a.start < e.start := by
  have hsorted : b.sorted = b.arranged := by
    apply sorted_eq_arranged
    refine List.pairwise_of_forall_mem_list fun a _ e he _ hinsertion => ?_
    have := hwide e he
    rw [Edit.isInsertion_iff] at hinsertion
    omega
  refine ⟨hsorted, ?_⟩
  rw [hsorted]
  refine h.inOrder_arranged.imp_of_mem fun {a e} ha _ hae => ?_
  have := hwide a (b.perm_arranged.mem_iff.1 ha)
  omega

/-- If edits that replace something are all recorded in one order, they are in every order, and
what comes of them is the same. -/
theorem recordAll_perm {source : String} {es es' : List Edit}
    (hwide : ∀ e ∈ es, e.start < e.stop) (hall : recordAll source es = .ok b)
    (hperm : es'.Perm es) :
    ∃ b' text, recordAll source es' = .ok b' ∧ b.result? = some text ∧ b'.result? = some text ∧
      b'.sorted = b.sorted ∧ (b.sorted.Pairwise fun a e => a.start < e.start) ∧
      b.sorted.IsChain fun a e => a.stop ≤ e.start := by
  obtain ⟨h, rfl⟩ := recordAll_eq_ok_iff.1 hall
  have h' : Consistent ⟨source, es'⟩ := h.perm hperm
  obtain ⟨harranged, hstarts⟩ := h.pairwise_start_sorted hwide
  obtain ⟨_, hstarts'⟩ := h'.pairwise_start_sorted fun e he => hwide e (hperm.mem_iff.1 he)
  obtain ⟨text, htext, _⟩ := h.exists_result? harranged
  have hsame : sorted ⟨source, es'⟩ = sorted ⟨source, es⟩ := by
    refine List.Perm.eq_of_pairwise (fun a e _ _ hae hea => ?_) hstarts' hstarts ?_
    · omega
    · exact (List.mergeSort_perm es' _).trans (hperm.trans (List.mergeSort_perm es _).symm)
  refine ⟨⟨source, es'⟩, text, recordAll_eq_ok_iff.2 ⟨h', rfl⟩, htext, ?_, hsame, hstarts, ?_⟩
  · rw [result?, hsame]
    exact htext
  · rw [harranged]
    exact h.inOrder_arranged.isChain

theorem recordAll_perm_backwards :
    ∃ b b', recordAll "héllo" [⟨3, 5, "L", none⟩, ⟨0, 1, "H", none⟩, ⟨1, 3, "é", none⟩] = .ok b ∧
      recordAll "héllo" [⟨1, 3, "é", none⟩, ⟨0, 1, "H", none⟩, ⟨3, 5, "L", none⟩] = .ok b' ∧
      b'.sorted = b.sorted ∧ ∃ text, b.result? = some text ∧ b'.result? = some text := by
  have hall : recordAll "héllo" [⟨3, 5, "L", none⟩, ⟨0, 1, "H", none⟩, ⟨1, 3, "é", none⟩] =
      .ok ⟨"héllo", [⟨3, 5, "L", none⟩, ⟨0, 1, "H", none⟩, ⟨1, 3, "é", none⟩]⟩ := by rfl
  obtain ⟨b', text, hall', htext, htext', hsorted, _⟩ :=
    recordAll_perm (by decide) hall (List.reverse_perm _)
  exact ⟨_, b', hall, hall', hsorted, text, htext, htext'⟩

end Buffer

end Downlevel
