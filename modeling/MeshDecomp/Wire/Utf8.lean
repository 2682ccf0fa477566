/-!
Text from bytes that need not be well formed. Every maximal part that begins a character and is not
carried through becomes one replacement character.
-/

namespace MeshDecomp.Wire

/-- The bytes of a text. -/
def utf8Bytes (s : String) : List UInt8 := s.toList.flatMap String.utf8EncodeChar

/-- What a first byte promises: the bits it gives, the range of the second byte, and how many bytes
follow it. -/
structure Lead where
  bits : Nat
  low : Nat
  high : Nat
  following : Nat

/-- Leads that could only begin an overlong form, half a character, or nothing, promise nothing. -/
def Lead.of? (b : Nat) : Option Lead :=
  if b < 0x80 then some ⟨b, 0x80, 0xbf, 0⟩
  else if b < 0xc2 then none
  else if b < 0xe0 then some ⟨b - 0xc0, 0x80, 0xbf, 1⟩
  else if b = 0xe0 then some ⟨0, 0xa0, 0xbf, 2⟩
  else if b = 0xed then some ⟨0xd, 0x80, 0x9f, 2⟩
  else if b < 0xf0 then some ⟨b - 0xe0, 0x80, 0xbf, 2⟩
  else if b = 0xf0 then some ⟨0, 0x90, 0xbf, 3⟩
  else if b < 0xf4 then some ⟨b - 0xf0, 0x80, 0xbf, 3⟩
  else if b = 0xf4 then some ⟨4, 0x80, 0x8f, 3⟩
  else none

def replacement : Char := '\ufffd'

/-- The characters of bytes, where a character of value `bits` still waits for `pending` bytes, the
next of them in `low, …, high`. -/
def decodeFrom (bits low high pending : Nat) : List UInt8 → List Char
  | [] => if pending = 0 then [] else [replacement]
  | b :: r =>
      if pending ≠ 0 ∧ low ≤ b.toNat ∧ b.toNat ≤ high then
        let bits := bits * 64 + b.toNat % 64
        if pending = 1 then Char.ofNat bits :: decodeFrom 0 0 0 0 r
        else decodeFrom bits 0x80 0xbf (pending - 1) r
      else
        let broken := if pending = 0 then [] else [replacement]
        match Lead.of? b.toNat with
        | none => broken ++ replacement :: decodeFrom 0 0 0 0 r
        | some lead =>
            if lead.following = 0 then broken ++ Char.ofNat lead.bits :: decodeFrom 0 0 0 0 r
            else broken ++ decodeFrom lead.bits lead.low lead.high lead.following r

def textOfBytes (bs : List UInt8) : String := String.ofList (decodeFrom 0 0 0 0 bs)

end MeshDecomp.Wire
