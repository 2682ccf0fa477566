import MeshDecomp.Wire.Utf8
import Mathlib.Data.List.Basic

/-! Text survives its bytes: every character is carried through whole. -/

namespace MeshDecomp.Wire

variable {bits low high pending n : Nat} {r : List UInt8}

theorem toNat_ofNat_of_lt (h : n < 256) : (UInt8.ofNat n).toNat = n := by
  rw [UInt8.toNat_ofNat', Nat.mod_eq_of_lt h]

/-- A byte that is not the last one of its character carries six bits. -/
theorem decodeFrom_following (hl : low ≤ n % 64 + 0x80) (hh : n % 64 + 0x80 ≤ high) :
    decodeFrom bits low high (pending + 2) (UInt8.ofNat (n % 64 + 0x80) :: r) =
      decodeFrom (bits * 64 + n % 64) 0x80 0xbf (pending + 1) r := by
  have hb : (UInt8.ofNat (n % 64 + 0x80)).toNat = n % 64 + 0x80 := toNat_ofNat_of_lt (by omega)
  have hbits : (n % 64 + 0x80) % 64 = n % 64 := by omega
  rw [decodeFrom, hb, hbits, if_pos ⟨by omega, hl, hh⟩]
  exact if_neg (by omega)

/-- The last byte of a character. -/
theorem decodeFrom_last (hl : low ≤ n % 64 + 0x80) (hh : n % 64 + 0x80 ≤ high) :
    decodeFrom bits low high 1 (UInt8.ofNat (n % 64 + 0x80) :: r) =
      Char.ofNat (bits * 64 + n % 64) :: decodeFrom 0 0 0 0 r := by
  have hb : (UInt8.ofNat (n % 64 + 0x80)).toNat = n % 64 + 0x80 := toNat_ofNat_of_lt (by omega)
  have hbits : (n % 64 + 0x80) % 64 = n % 64 := by omega
  rw [decodeFrom, hb, hbits, if_pos ⟨by omega, hl, hh⟩]
  exact if_pos rfl

theorem decodeFrom_single (hn : n < 0x80) :
    decodeFrom 0 0 0 0 (UInt8.ofNat n :: r) = Char.ofNat n :: decodeFrom 0 0 0 0 r := by
  have hlead : Lead.of? n = some ⟨n, 0x80, 0xbf, 0⟩ := if_pos hn
  rw [decodeFrom, if_neg (by simp), toNat_ofNat_of_lt (by omega), hlead]
  rfl

theorem decodeFrom_lead (hn : n < 256) (h : Lead.of? n = some ⟨bits, low, high, pending + 1⟩) :
    decodeFrom 0 0 0 0 (UInt8.ofNat n :: r) = decodeFrom bits low high (pending + 1) r := by
  rw [decodeFrom, if_neg (by simp), toNat_ofNat_of_lt hn, h]
  rfl

/-- The lead of a character of three bytes. -/
theorem lead_of_three {v : Nat} (h : 0x7ff < v) (h' : v ≤ 0xffff)
    (hs : v < 0xd800 ∨ 0xdfff < v) :
    ∃ low high, Lead.of? (v / 4096 % 16 + 0xe0) = some ⟨v / 4096, low, high, 2⟩ ∧
      low ≤ v / 64 % 64 + 0x80 ∧ v / 64 % 64 + 0x80 ≤ high := by
  unfold Lead.of?
  by_cases h0 : v / 4096 = 0
  · exact ⟨0xa0, 0xbf, by simp [h0], by omega, by omega⟩
  by_cases hd : v / 4096 = 0xd
  · exact ⟨0x80, 0x9f, by simp [hd], by omega, by omega⟩
  refine ⟨0x80, 0xbf, ?_, by omega, by omega⟩
  have hbits : v / 4096 % 16 + 0xe0 - 0xe0 = v / 4096 := by omega
  rw [if_neg (by omega), if_neg (by omega), if_neg (by omega), if_neg (by omega),
    if_neg (by omega), if_pos (by omega), hbits]

/-- The lead of a character of four bytes. -/
theorem lead_of_four {v : Nat} (h : 0xffff < v) (h' : v < 0x110000) :
    ∃ low high, Lead.of? (v / 262144 % 8 + 0xf0) = some ⟨v / 262144, low, high, 3⟩ ∧
      low ≤ v / 4096 % 64 + 0x80 ∧ v / 4096 % 64 + 0x80 ≤ high := by
  unfold Lead.of?
  by_cases h0 : v / 262144 = 0
  · exact ⟨0x90, 0xbf, by simp [h0], by omega, by omega⟩
  by_cases h4 : v / 262144 = 4
  · exact ⟨0x80, 0x8f, by simp [h4], by omega, by omega⟩
  refine ⟨0x80, 0xbf, ?_, by omega, by omega⟩
  have hbits : v / 262144 % 8 + 0xf0 - 0xf0 = v / 262144 := by omega
  rw [if_neg (by omega), if_neg (by omega), if_neg (by omega), if_neg (by omega),
    if_neg (by omega), if_neg (by omega), if_neg (by omega), if_pos (by omega), hbits]

/-- A character is read back from its bytes. -/
theorem decodeFrom_char (c : Char) :
    decodeFrom 0 0 0 0 (String.utf8EncodeChar c ++ r) = c :: decodeFrom 0 0 0 0 r := by
  have hc : Char.ofNat c.val.toNat = c := Char.ofNat_toNat c
  have hvalid : c.val.toNat < 0xd800 ∨ 0xdfff < c.val.toNat ∧ c.val.toNat < 0x110000 := c.valid
  simp only [String.utf8EncodeChar]
  generalize c.val.toNat = v at *
  split_ifs with h1 h2 h3 <;> simp only [List.cons_append, List.nil_append]
  · rw [decodeFrom_single (by omega), hc]
  · have hlead : Lead.of? (v / 64 % 32 + 0xc0) = some ⟨v / 64, 0x80, 0xbf, 1⟩ := by
      have hbits : v / 64 % 32 + 0xc0 - 0xc0 = v / 64 := by omega
      rw [Lead.of?, if_neg (by omega), if_neg (by omega), if_pos (by omega), hbits]
    have hbits : v / 64 * 64 + v % 64 = v := by omega
    rw [decodeFrom_lead (by omega) hlead, decodeFrom_last (by omega) (by omega), hbits, hc]
  · obtain ⟨low, high, hlead, hlow, hhigh⟩ := lead_of_three (v := v) (by omega) h3 (by omega)
    have hbits : (v / 4096 * 64 + v / 64 % 64) * 64 + v % 64 = v := by omega
    rw [decodeFrom_lead (by omega) hlead, decodeFrom_following hlow hhigh,
      decodeFrom_last (by omega) (by omega), hbits, hc]
  · obtain ⟨low, high, hlead, hlow, hhigh⟩ := lead_of_four (v := v) (by omega) (by omega)
    have hbits : ((v / 262144 * 64 + v / 4096 % 64) * 64 + v / 64 % 64) * 64 + v % 64 = v := by
      omega
    rw [decodeFrom_lead (by omega) hlead, decodeFrom_following hlow hhigh,
      decodeFrom_following (by omega) (by omega), decodeFrom_last (by omega) (by omega), hbits, hc]

theorem textOfBytes_utf8Bytes (s : String) : textOfBytes (utf8Bytes s) = s := by
  have hchars : ∀ l : List Char, decodeFrom 0 0 0 0 (l.flatMap String.utf8EncodeChar) = l := by
    intro l
    induction l with
    | nil => rfl
    | cons c l ih => rw [List.flatMap_cons, decodeFrom_char, ih]
  rw [textOfBytes, utf8Bytes, hchars, String.ofList_toList]

/-- A character has at most four bytes. -/
theorem length_utf8Bytes_le (s : String) : (utf8Bytes s).length ≤ 4 * s.length := by
  have hchars : ∀ l : List Char, (l.flatMap String.utf8EncodeChar).length ≤ 4 * l.length := by
    intro l
    induction l with
    | nil => exact Nat.le_refl 0
    | cons c l ih =>
      have hc : (String.utf8EncodeChar c).length ≤ 4 := by
        simp only [String.utf8EncodeChar]
        split_ifs <;> simp
      rw [List.flatMap_cons, List.length_append, List.length_cons]
      omega
  rw [← String.length_toList]
  exact hchars s.toList

end MeshDecomp.Wire
