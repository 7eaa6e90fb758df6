/-
The bytes of a text.

No character's bytes begin another's, so a text whose bytes begin with those of some
characters begins with these characters.  Bytes also keep the order of characters: a character
of more bytes has a larger first byte, and of two characters with as many bytes each byte
holds some digits of the character's number, the leading ones first.  So texts are ordered as
their bytes are.
-/
import AtomicCss.Glob.Match
import Mathlib.Data.Nat.Basic
import Mathlib.Tactic.SplitIfs

namespace AtomicCss.Glob

theorem bytes_cons (c : Char) (cs : List Char) :
    bytes (c :: cs) = String.utf8EncodeChar c ++ bytes cs := by
  simp [bytes]

theorem bytes_append (cs ds : List Char) : bytes (cs ++ ds) = bytes cs ++ bytes ds := by
  simp [bytes]

theorem utf8EncodeChar_append_inj {c d : Char} {s t : Bytes}
    (h : String.utf8EncodeChar c ++ s = String.utf8EncodeChar d ++ t) : c = d ∧ s = t := by
  have hdecode (c : Char) (s : Bytes) :
      (String.utf8EncodeChar c ++ s).toByteArray.utf8DecodeChar? 0 = some c := by
    rw [List.toByteArray_append]
    exact ByteArray.utf8DecodeChar?_utf8EncodeChar_append
  obtain rfl : c = d := by
    have hc := hdecode c s
    rw [h, hdecode d t] at hc
    exact (Option.some.inj hc).symm
  exact ⟨rfl, List.append_cancel_left h⟩

/-- A text whose bytes begin with those of some characters begins with the characters. -/
theorem exists_append_of_bytes_eq {cs ds : List Char} {s : Bytes} (h : bytes cs = bytes ds ++ s) :
    ∃ rest, cs = ds ++ rest ∧ s = bytes rest := by
  induction ds generalizing cs with
  | nil => exact ⟨cs, rfl, h.symm⟩
  | cons d ds ih =>
    cases cs with
    | nil =>
      rw [bytes_cons, List.append_assoc] at h
      have hempty := (List.append_eq_nil_iff.mp h.symm).1
      simp at hempty
    | cons c cs =>
      rw [bytes_cons, bytes_cons, List.append_assoc] at h
      obtain ⟨rfl, htail⟩ := utf8EncodeChar_append_inj h
      obtain ⟨rest, rfl, hs⟩ := ih htail
      exact ⟨rest, rfl, hs⟩

theorem bytes_injective {cs ds : List Char} (h : bytes cs = bytes ds) : cs = ds := by
  obtain ⟨rest, rfl, hrest⟩ := exists_append_of_bytes_eq (h.trans (List.append_nil _).symm)
  cases rest with
  | nil => rw [List.append_nil]
  | cons c rest =>
    rw [bytes_cons] at hrest
    have hempty := (List.append_eq_nil_iff.mp hrest.symm).1
    simp at hempty

/-! ### Order -/

theorem ofNat_lt_ofNat {m n : Nat} (hm : m < 256) (hn : n < 256) :
    UInt8.ofNat m < UInt8.ofNat n ↔ m < n := by
  rw [UInt8.lt_iff_toNat_lt, UInt8.toNat_ofNat_of_lt' hm, UInt8.toNat_ofNat_of_lt' hn]

theorem ofNat_eq_ofNat {m n : Nat} (hm : m < 256) (hn : n < 256) :
    UInt8.ofNat m = UInt8.ofNat n ↔ m = n := by
  rw [← UInt8.toNat_inj, UInt8.toNat_ofNat_of_lt' hm, UInt8.toNat_ofNat_of_lt' hn]

/-- The bytes of a smaller character come first, whatever follows them. -/
theorem utf8EncodeChar_append_lt {c d : Char} (h : c < d) (s t : Bytes) :
    String.utf8EncodeChar c ++ s < String.utf8EncodeChar d ++ t := by
  have hlt : c.val.toNat < d.val.toNat := h
  have hd : d.val.toNat < 0x110000 := by
    have hvalid : d.val.toNat.isValidChar := d.valid
    unfold Nat.isValidChar at hvalid
    omega
  unfold String.utf8EncodeChar
  dsimp only
  generalize c.val.toNat = m at *
  generalize d.val.toNat = n at *
  -- Each byte but the first holds a digit to the base 64, and the first what is left.
  have hdigit : ∀ a b : Nat, a < b ↔ a / 64 < b / 64 ∨ a / 64 = b / 64 ∧ a % 64 < b % 64 := by
    omega
  have hlast := (hdigit m n).mp hlt
  have hthird := hdigit (m / 64) (n / 64)
  have hsecond := hdigit (m / 64 / 64) (n / 64 / 64)
  simp only [Nat.div_div_eq_div_mul, Nat.reduceMul] at hthird hsecond
  have hfirst : ∀ k < 0x110000, k / 262144 % 8 = k / 262144 := by omega
  have hm := hfirst m (Nat.lt_trans hlt hd)
  have hn := hfirst n hd
  split_ifs
  all_goals
    simp (disch := omega) only [List.cons_append, List.nil_append, List.cons_lt_cons_iff,
      ofNat_lt_ofNat, ofNat_eq_ofNat]
    omega

/-- **Texts are ordered as their bytes are.** -/
theorem bytes_lt_bytes {cs ds : List Char} (h : cs < ds) : bytes cs < bytes ds := by
  induction cs generalizing ds with
  | nil =>
      cases ds with
      | nil => exact absurd h (List.lt_irrefl _)
      | cons d ds =>
          rw [bytes_cons]
          have hne : String.utf8EncodeChar d ≠ [] := by simp
          obtain ⟨b, rest, hd⟩ := List.exists_cons_of_ne_nil hne
          rw [hd]
          exact List.nil_lt_cons _ _
  | cons c cs ih =>
      cases ds with
      | nil => exact absurd h (List.not_lt_nil _)
      | cons d ds =>
          rw [bytes_cons, bytes_cons]
          rcases List.cons_lt_cons_iff.mp h with hlt | ⟨rfl, hlt⟩
          · exact utf8EncodeChar_append_lt hlt _ _
          · exact List.append_left_lt (ih hlt)

end AtomicCss.Glob
