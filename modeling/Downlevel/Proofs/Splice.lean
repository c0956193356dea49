import Downlevel.Edit
import Downlevel.Proofs.Cut

/-!
# Edits as a splice

Edits are applied one by one from the last to the first, each in the text that
the later ones have left. For edits that stand in order and apart this is the
same as one walk over the source that copies the gaps between the edits and
writes the replacements in their places.
-/

namespace Downlevel

/-- The bytes of `source` from `pos` on, with the edits made in them. The edits
stand in order. -/
def spliceFrom (source : ByteArray) (pos : Nat) : List Edit → ByteArray
  | [] => source.extract pos source.size
  | e :: es =>
    source.extract pos e.start ++ e.text.toByteArray ++ spliceFrom source e.stop es

def splice (source : String) (edits : List Edit) : ByteArray :=
  spliceFrom source.toByteArray 0 edits

structure Edit.Fits (source : String) (e : Edit) : Prop where
  start_le_stop : e.start ≤ e.stop
  start_isBoundary : Text.isBoundary source e.start = true
  stop_isBoundary : Text.isBoundary source e.stop = true

theorem Edit.Fits.stop_le {source : String} {e : Edit} (h : e.Fits source) :
    e.stop ≤ source.utf8ByteSize :=
  Text.le_utf8ByteSize_of_isBoundary h.stop_isBoundary

def Edit.InOrder (edits : List Edit) : Prop :=
  edits.Pairwise fun a b => a.stop ≤ b.start

instance (edits : List Edit) : Decidable (Edit.InOrder edits) :=
  inferInstanceAs (Decidable (edits.Pairwise fun a b => a.stop ≤ b.start))

theorem splice_nil (source : String) : splice source [] = source.toByteArray := by
  rw [splice, spliceFrom, ByteArray.extract_zero_size]

/-- Copying further before the first edit changes nothing. -/
theorem extract_append_spliceFrom (source : ByteArray) {i pos : Nat} (edits : List Edit)
    (hi : i ≤ pos) (hpos : pos ≤ source.size) (hedits : ∀ e ∈ edits, pos ≤ e.start) :
    source.extract i pos ++ spliceFrom source pos edits = spliceFrom source i edits := by
  cases edits with
  | nil => rw [spliceFrom, spliceFrom, ← ByteArray.extract_eq_extract_append_extract _ hi hpos]
  | cons e es =>
    have he : pos ≤ e.start := hedits e List.mem_cons_self
    rw [spliceFrom, spliceFrom, ByteArray.extract_eq_extract_append_extract pos hi he]
    simp only [ByteArray.append_assoc]

theorem size_extract_zero {s : String} {pos : Nat} (h : pos ≤ s.utf8ByteSize) :
    (s.toByteArray.extract 0 pos).size = pos := by
  rw [ByteArray.size_extract, String.size_toByteArray]
  omega

theorem extract_zero_of_eq_append {s t : String} {rest : ByteArray} {n pos : Nat}
    (hpos : pos ≤ s.utf8ByteSize) (hn : n ≤ pos)
    (ht : t.toByteArray = s.toByteArray.extract 0 pos ++ rest) :
    t.toByteArray.extract 0 n = s.toByteArray.extract 0 n := by
  have hrest : rest.extract (0 - pos) (n - pos) = ByteArray.empty := by
    rw [ByteArray.extract_eq_empty_iff]
    omega
  rw [ht, ByteArray.extract_append, size_extract_zero hpos, hrest, ByteArray.append_empty,
    ByteArray.extract_extract]
  congr 1
  omega

namespace Buffer

/-- Edits in order and apart can always be applied, and what comes out is the splice. -/
theorem exists_applyAll? {source : String} {edits : List Edit}
    (hfits : ∀ e ∈ edits, e.Fits source) (hord : Edit.InOrder edits) :
    ∃ text, applyAll? source edits = some text ∧ text.toByteArray = splice source edits := by
  induction edits with
  | nil => exact ⟨source, rfl, (splice_nil source).symm⟩
  | cons e es ih =>
    obtain ⟨hbefore, hord⟩ := List.pairwise_cons.1 hord
    have he : e.Fits source := hfits e List.mem_cons_self
    obtain ⟨text, htext, hsplice⟩ := ih (fun f hf => hfits f (List.mem_cons_of_mem e hf)) hord
    -- The later edits have left the text alone up to `e.stop`, so it can still be cut there.
    have hbytes : text.toByteArray =
        source.toByteArray.extract 0 e.stop ++ spliceFrom source.toByteArray e.stop es := by
      rw [hsplice, splice, extract_append_spliceFrom _ es (Nat.zero_le _)
        (by rw [String.size_toByteArray]; exact he.stop_le) hbefore]
    have hsize : (source.toByteArray.extract 0 e.stop).size = e.stop :=
      size_extract_zero he.stop_le
    have hlen : text.utf8ByteSize = e.stop + (spliceFrom source.toByteArray e.stop es).size := by
      rw [← String.size_toByteArray, hbytes, ByteArray.size_append, hsize]
    have hhead : text.toByteArray.extract 0 e.start = source.toByteArray.extract 0 e.start :=
      extract_zero_of_eq_append he.stop_le he.start_le_stop hbytes
    have hstart : Text.isBoundary text e.start = true :=
      Text.isBoundary_of_extract_eq (by have := he.start_le_stop; omega) hhead.symm
        he.start_isBoundary
    have hstop : Text.isBoundary text e.stop = true :=
      Text.isBoundary_of_extract_eq (by omega)
        (extract_zero_of_eq_append he.stop_le (Nat.le_refl _) hbytes).symm he.stop_isBoundary
    have htail : text.toByteArray.extract e.stop text.utf8ByteSize =
        spliceFrom source.toByteArray e.stop es := by
      rw [hbytes]
      exact ByteArray.extract_append_eq_right hsize.symm (by rw [hlen, hsize])
    obtain ⟨result, hresult, hr⟩ := Text.exists_replace? hstart hstop he.start_le_stop e.text
    refine ⟨result, by simp only [applyAll?, htext, hresult], ?_⟩
    rw [hr, hhead, htail, splice, spliceFrom]

/-- Edits that were recorded in order stay as they are when sorted. -/
theorem sorted_eq_edits {b : Buffer} (hle : ∀ e ∈ b.edits, e.start ≤ e.stop)
    (hord : Edit.InOrder b.edits) : b.sorted = b.edits := by
  apply List.mergeSort_of_pairwise
  refine hord.imp_of_mem fun {a c} ha _ hac => ?_
  have := hle a ha
  simp only [decide_eq_true_eq]
  omega

end Buffer

end Downlevel
