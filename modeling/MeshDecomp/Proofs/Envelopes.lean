import MeshDecomp.Proofs.Codec

/-!
Every message that a machine holds survives its written form. Its numbers are machine words, and
none of its lists and texts has more members than a word can count.
-/

namespace MeshDecomp

open Wire

namespace Wire

/-- A list of machine words in memory. -/
def ListFits (ids : List Nat) : Prop := ids.length < 2 ^ 64 ∧ ∀ x ∈ ids, x < 2 ^ 64

def MapFits (m : IdMap (List Nat)) : Prop :=
  m.size < 2 ^ 64 ∧ ∀ e ∈ m.entries, e.1 < 2 ^ 64 ∧ ListFits e.2

def PairsFit (ps : List (Nat × Nat)) : Prop :=
  ps.length < 2 ^ 64 ∧ ∀ p ∈ ps, p.1 < 2 ^ 64 ∧ p.2 < 2 ^ 64

def CentroidsFit (c : Centroids) : Prop := ∀ a, (c.axis a).length < 2 ^ 64

end Wire

/-- A machine can hold the message. -/
def Envelope.Fits : Envelope → Prop
  | .peer (.add units) => MapFits units
  | .peer .ack => True
  | .peer (.request nodes) => ListFits nodes
  | .peer (.reply pairs) => PairsFit pairs
  | .peer (.lower bound) => bound < 2 ^ 64
  | .command (.partition units assignment) => units < 2 ^ 64 ∧ ListFits assignment
  | .command .flatten => True
  | .command (.reorder start asked) => start < 2 ^ 64 ∧ MapFits asked
  | .command (.deviation _) => True
  | .contribution (.load n) => n < 2 ^ 64
  | .contribution .setup => True
  | .contribution (.elements s) =>
      s.first < 2 ^ 64 ∧ ListFits s.connectivity ∧ ∀ c ∈ s.centroids, CentroidsFit c
  | .contribution .distributed => True
  | .contribution .flattened => True
  | .contribution (.nodes ids) => ListFits ids
  | .contribution (.cost _) => True
  | .contribution (.deviation _) => True
  | .abort _ reason => reason.utf8ByteSize < 2 ^ 64

namespace Wire

variable {e : Envelope} {sender : Nat}

theorem length_utf8Bytes (s : String) : (utf8Bytes s).length = s.utf8ByteSize := by
  have hs : s.toList.utf8Encode = s.toByteArray := by
    rw [← String.toByteArray_ofList, String.ofList_toList]
  rw [← String.size_toByteArray, ← hs, List.utf8Encode, List.size_toByteArray, utf8Bytes]

theorem ListFits.inWords {ids : List Nat} (h : ListFits ids) : InWords (wordsOfList ids) :=
  inWords_list.2 h

theorem MapFits.inWords {m : IdMap (List Nat)} (h : MapFits m) : InWords (wordsOfMap m) := by
  obtain ⟨hsize, hentries⟩ := h
  apply inWords_map hsize
  intro e he
  exact ⟨(hentries e he).1, (hentries e he).2.inWords⟩

/-- A message in memory is written in machine words. -/
theorem inWords_payload (h : e.Fits) : InWords (payload e) := by
  match e with
  | .peer (.add units) => exact MapFits.inWords h
  | .peer .ack | .command .flatten | .contribution .setup | .contribution .distributed
  | .contribution .flattened => exact inWords_nil
  | .peer (.request nodes) => exact ListFits.inWords h
  | .peer (.reply pairs) => exact inWords_pairs h.1 h.2
  | .peer (.lower bound) => exact inWords_cons.2 ⟨h, inWords_nil⟩
  | .command (.partition units assignment) => exact inWords_cons.2 ⟨h.1, h.2.inWords⟩
  | .command (.reorder start asked) => exact inWords_cons.2 ⟨h.1, h.2.inWords⟩
  | .command (.deviation x) | .contribution (.cost x) | .contribution (.deviation x) =>
    exact inWords_real x
  | .contribution (.load n) => exact inWords_cons.2 ⟨h, inWords_nil⟩
  | .contribution (.elements ⟨first, connectivity, centroids⟩) =>
    obtain ⟨hfirst, hids, haxes⟩ := h
    have hwords : InWords (wordsOfCentroids centroids) := by
      cases centroids with
      | none => exact inWords_cons.2 ⟨wordOfFlag_lt false, inWords_nil⟩
      | some c => exact inWords_centroids (haxes c rfl)
    exact inWords_cons.2 ⟨hfirst, inWords_append.2 ⟨hids.inWords, hwords⟩⟩
  | .contribution (.nodes ids) => exact ListFits.inWords h
  | .abort user reason =>
    have htext : (utf8Bytes reason).length < 2 ^ 64 := by
      rw [length_utf8Bytes]
      exact h
    exact inWords_cons.2 ⟨wordOfFlag_lt user, inWords_text htext⟩

/-- What is written is read back, whatever its kind and content, and takes whole words. -/
theorem decode_encode (hs : sender < 2 ^ 32) (he : e.Fits) :
    decode (encode sender e) = .ok (sender, e) ∧ 8 ∣ (encode sender e).length := by
  constructor
  · exact decode_encode_of_inWords hs (inWords_payload he)
  · rw [length_encode]
    exact Nat.dvd_mul_right 8 _

/-- Nested lists, centroids with axes of their own lengths, and a text that ends amid a word. -/
theorem decode_encode_nested :
    let asked : Envelope := .command (.reorder 17 (.ofList [(0, [5, 6]), (3, [])]))
    let slice : Envelope :=
      .contribution (.elements ⟨40, [1, 2, 3, 4], some ⟨[.one, .negZero], [.infinity], []⟩⟩)
    let failure : Envelope := .abort true "naïve"
    (asked.Fits ∧ decode (encode 0 asked) = .ok (0, asked)) ∧
    (slice.Fits ∧ decode (encode 7 slice) = .ok (7, slice)) ∧
    (failure.Fits ∧ decode (encode 4294967295 failure) = .ok (4294967295, failure)) := by
  intro asked slice failure
  have hasked : asked.Fits := by
    refine ⟨by decide, by decide, ?_⟩
    unfold ListFits
    decide
  have hslice : slice.Fits := by
    refine ⟨by decide, ?_, ?_⟩
    · unfold ListFits
      decide
    · rintro c ⟨⟩ a
      cases a <;> decide
  have hfailure : failure.Fits := by
    show "naïve".utf8ByteSize < 2 ^ 64
    decide
  exact ⟨⟨hasked, (decode_encode (by decide) hasked).1⟩,
    ⟨hslice, (decode_encode (by decide) hslice).1⟩,
    ⟨hfailure, (decode_encode (by decide) hfailure).1⟩⟩

end Wire
end MeshDecomp
