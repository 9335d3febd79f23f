/-
  LabelWalks.Proofs.Text.Octets
  ─────────────────────────────
  **TEXTS AND THEIR OCTETS.**

  A file is cut into lines before any of them is decoded.  For a text that was
  written in UTF-8 this makes no difference: the octet of a line feed stands for a
  line feed and is no part of another character.

    • `toList_toUTF8` — the octets of a text, character by character,
    • `split_octets` — cutting the octets is cutting the characters,
    • `HubIndex.ofOctets_toUTF8` — an index is read from octets as from the text.
-/
import LabelWalks.HubIndex.Reader
import LabelWalks.Proofs.Text.Split

namespace LabelWalks

namespace Text

/-! ## §1. The octets of a text. -/

theorem toList_loop (octets : ByteArray) (i : Nat) (before : List UInt8) :
    ByteArray.toList.loop octets i before = before.reverse ++ octets.data.toList.drop i := by
  induction i, before using ByteArray.toList.loop.induct octets with
  | case1 i before hlt ih =>
      have hi : i < octets.data.toList.length := by simpa using hlt
      have hget : octets.get! i = octets.data.toList[i] := by
        simp only [ByteArray.get!, Array.getElem_toList]
        exact getElem!_pos octets.data i (by simpa using hlt)
      rw [ByteArray.toList.loop, if_pos hlt, ih, List.drop_eq_getElem_cons hi, hget]
      simp
  | case2 i before hge =>
      have hlength : octets.data.toList.length ≤ i := by simpa using hge
      rw [ByteArray.toList.loop, if_neg hge, List.drop_eq_nil_of_le hlength, List.append_nil]

/-- The octets of characters in UTF-8. -/
def encode (s : List Char) : List UInt8 :=
  s.flatMap String.utf8EncodeChar

theorem toList_toUTF8 (text : String) : text.toUTF8.toList = encode text.toList := by
  have hdata : text.toUTF8.data.toList = encode text.toList := by
    show text.toByteArray.data.toList = _
    rw [← String.utf8Encode_toList, List.utf8Encode, List.data_toByteArray]
    rfl
  rw [ByteArray.toList, toList_loop, hdata]
  rfl

theorem decode_encode (s : List Char) : HubIndex.decode (encode s) = some s := by
  have hbytes : (⟨(encode s).toArray⟩ : ByteArray) = (String.ofList s).toByteArray := by
    rw [String.toByteArray_ofList, List.utf8Encode]
    exact ByteArray.ext List.data_toByteArray.symm
  unfold HubIndex.decode String.fromUTF8?
  rw [hbytes, dif_pos (String.ofList s).isValidUTF8]
  exact congrArg some String.toList_ofList

/-! ## §2. Lines of octets. -/

/-- Octets of a character other than a line feed are not that of a line feed. -/
theorem lineFeed_not_mem {c : Char} (h : c ≠ '\n') : (10 : UInt8) ∉ String.utf8EncodeChar c := by
  have hcode : c.val.toNat ≠ 10 := by
    intro hten
    exact h (Char.ext (UInt32.toNat_inj.1 hten))
  -- one octet is the code of the character, and of several each is 128 at least
  have hoctet : ∀ n, n % 256 ≠ 10 → (10 : UInt8) ≠ UInt8.ofNat n := by
    intro n hn heq
    have hnat := congrArg UInt8.toNat heq
    rw [UInt8.toNat_ofNat'] at hnat
    exact hn hnat.symm
  unfold String.utf8EncodeChar
  dsimp only
  split
  · rw [List.mem_singleton]
    exact hoctet _ (by omega)
  · split
    · simp only [List.mem_cons, List.not_mem_nil, or_false, not_or]
      exact ⟨hoctet _ (by omega), hoctet _ (by omega)⟩
    · split
      · simp only [List.mem_cons, List.not_mem_nil, or_false, not_or]
        exact ⟨hoctet _ (by omega), hoctet _ (by omega), hoctet _ (by omega)⟩
      · simp only [List.mem_cons, List.not_mem_nil, or_false, not_or]
        exact ⟨hoctet _ (by omega), hoctet _ (by omega), hoctet _ (by omega),
          hoctet _ (by omega)⟩

/-- What has no separator in it goes to the first piece. -/
theorem split_append {α : Type} [DecidableEq α] {sep : α} {s rest first : List α}
    {others : List (List α)} (h : sep ∉ s) (hrest : split sep rest = first :: others) :
    split sep (s ++ rest) = (s ++ first) :: others := by
  induction s with
  | nil => exact hrest
  | cons c s ih =>
      rw [List.mem_cons, not_or] at h
      exact split_cons_of_ne (Ne.symm h.1) (ih h.2)

/-- **Cutting the octets is cutting the characters.** -/
theorem split_octets (s : List Char) : split 10 (encode s) = (split '\n' s).map encode := by
  induction s with
  | nil => rfl
  | cons c s ih =>
      by_cases hc : c = '\n'
      · subst hc
        show split 10 (10 :: encode s) = _
        unfold split
        rw [if_pos rfl, if_pos rfl, List.map_cons, ih]
        rfl
      · obtain ⟨first, others, hsplit⟩ := List.exists_cons_of_ne_nil (split_ne_nil '\n' s)
        rw [hsplit] at ih
        show split 10 (String.utf8EncodeChar c ++ encode s) = _
        rw [split_append (lineFeed_not_mem hc) ih]
        unfold split
        rw [if_neg hc, hsplit]
        rfl

end Text

/-- **An index is read from octets as from the text** that they are. -/
theorem HubIndex.ofOctets_toUTF8 (m : Mapping) (text : String) :
    ofOctets m text.toUTF8 = ofText m text := by
  unfold ofOctets ofText
  rw [Text.toList_toUTF8, Text.split_octets, List.map_map]
  refine congrArg (ofLines m) (List.map_congr_left fun line _ => ?_)
  exact Text.decode_encode line

end LabelWalks
