import MeshDecomp.Wire.Codec
import MeshDecomp.Proofs.Utf8
import Mathlib.Algebra.Ring.Nat

/-!
Messages survive their written form. For every part of a message its scanner takes exactly the words
of the part, whatever follows them.
-/

namespace MeshDecomp.Wire

variable {α β : Type} {ws vs : List Nat}

/-- Everything fits into the words of a machine. -/
def InWords (ws : List Nat) : Prop := ∀ w ∈ ws, w < 2 ^ 64

/-- A word is written in eight bytes, and cut to them. -/
theorem wordsOfBytes_littleEndian (w : Nat) (bs : List UInt8) :
    wordsOfBytes (littleEndian 8 w ++ bs) = w % 2 ^ 64 :: wordsOfBytes bs := by
  have hw : ofLittleEndian (littleEndian 8 w) = w % 2 ^ 64 := ofLittleEndian_littleEndian 8 w
  simp only [littleEndian] at hw ⊢
  simp only [List.cons_append, List.nil_append, wordsOfBytes, hw]

theorem wordsOfBytes_bytesOfWords (ws : List Nat) :
    wordsOfBytes (bytesOfWords ws) = ws.map (· % 2 ^ 64) := by
  induction ws with
  | nil => rfl
  | cons w ws ih =>
    rw [bytesOfWords, List.flatMap_cons, wordsOfBytes_littleEndian]
    exact congrArg _ ih

theorem InWords.map_mod (h : InWords ws) : ws.map (· % 2 ^ 64) = ws := by
  have hid : ws.map (· % 2 ^ 64) = ws.map id := by
    apply List.map_congr_left
    intro w hw
    exact Nat.mod_eq_of_lt (h w hw)
  rw [hid, List.map_id]

theorem ofLittleEndian_lt_word {bs : List UInt8} (h : bs.length ≤ 8) :
    ofLittleEndian bs < 2 ^ 64 := by
  have hpow : Nat.pow 256 bs.length ≤ Nat.pow 256 8 := Nat.pow_le_pow_right (by decide) h
  exact Nat.lt_of_lt_of_le (ofLittleEndian_lt bs) hpow

/-- Bytes fill as many words as it takes, with zeros behind them. -/
theorem pack_spec (bs : List UInt8) :
    (pack bs).length = (bs.length + 7) / 8 ∧ InWords (pack bs) ∧
      bytesOfWords (pack bs) = bs ++ List.replicate (8 * (pack bs).length - bs.length) 0 := by
  induction bs using pack.induct with
  | case1 a b c d e f g h r ih =>
    obtain ⟨hlen, hwords, hbytes⟩ := ih
    have hword : littleEndian 8 (ofLittleEndian [a, b, c, d, e, f, g, h]) =
        [a, b, c, d, e, f, g, h] := littleEndian_ofLittleEndian [a, b, c, d, e, f, g, h]
    refine ⟨?_, ?_, ?_⟩
    · simp only [pack, List.length_cons, hlen]
      omega
    · exact List.forall_mem_cons.2 ⟨ofLittleEndian_lt_word (Nat.le_refl 8), hwords⟩
    · have hzeros :
          8 * ((pack r).length + 1) - (r.length + 8) = 8 * (pack r).length - r.length := by
        omega
      rw [bytesOfWords] at hbytes
      rw [pack, bytesOfWords, List.flatMap_cons, hword, hbytes]
      simp only [List.cons_append, List.nil_append, List.length_cons, hzeros]
  | case2 => exact ⟨rfl, fun w hw => absurd hw List.not_mem_nil, rfl⟩
  | case3 bs hlong hnil =>
    have hpos : bs.length ≠ 0 := fun h0 => hnil (List.eq_nil_of_length_eq_zero h0)
    have hshort : bs.length ≤ 7 := by
      by_contra hlt
      obtain _ | ⟨a, _ | ⟨b, _ | ⟨c, _ | ⟨d, _ | ⟨e, _ | ⟨f, _ | ⟨g, _ | ⟨h, r⟩⟩⟩⟩⟩⟩⟩⟩ := bs
      case cons.cons.cons.cons.cons.cons.cons.cons => exact hlong _ _ _ _ _ _ _ _ _ rfl
      all_goals simp at hlt
    have hpack : pack bs = [ofLittleEndian bs] := by
      unfold pack
      split
      · exact absurd rfl (hlong _ _ _ _ _ _ _ _ _)
      · exact absurd rfl hnil
      · rfl
    rw [hpack]
    refine ⟨?_, ?_, ?_⟩
    · rw [List.length_singleton]
      omega
    · exact List.forall_mem_singleton.2 (ofLittleEndian_lt_word (by omega))
    · have hwidth : bs.length + (8 * 1 - bs.length) = 8 := by omega
      rw [bytesOfWords, List.flatMap_singleton, List.length_singleton,
        ← littleEndian_ofLittleEndian_add, hwidth]

theorem take_bytesOfWords_pack (bs : List UInt8) :
    (bytesOfWords (pack bs)).take bs.length = bs := by
  rw [(pack_spec bs).2.2, List.take_left]

/-! ### Parts -/

/-- The words of keys with their lists, in the order that is given. -/
def wordsOfEntries (l : List (Nat × List Nat)) : List Nat :=
  l.length :: l.flatMap fun e => e.1 :: wordsOfList e.2

theorem wordsOfMap_eq (m : IdMap (List Nat)) : wordsOfMap m = wordsOfEntries m.entries := by
  rw [wordsOfMap, wordsOfEntries, IdMap.length_entries]

/-- The scanner takes `ws` for `a`. -/
def Reads (s : Scanner α) (a : α) (ws : List Nat) : Prop := ∀ rest, s (ws ++ rest) = .ok (a, rest)

namespace Reads

open Scanner

theorem ret (a : α) : Reads (Scanner.ret a) a [] := fun _ => rfl

theorem andThen {s : Scanner α} {f : α → Scanner β} {a : α} {b : β} (h : Reads s a ws)
    (hf : Reads (f a) b vs) : Reads (s.andThen f) b (ws ++ vs) := by
  intro rest
  rw [Scanner.andThen, List.append_assoc, h]
  exact hf rest

theorem map {s : Scanner α} {a : α} (h : Reads s a ws) (f : α → β) :
    Reads (s.map f) (f a) ws := by
  have hret : Reads (Scanner.ret (f a)) (f a) [] := ret (f a)
  rw [← List.append_nil ws]
  exact h.andThen hret

theorem word (w : Nat) : Reads Scanner.word w [w] := fun _ => rfl

theorem times {item : Scanner α} {words : α → List Nat} {l : List α}
    (h : ∀ a ∈ l, Reads item a (words a)) :
    Reads (Scanner.times item l.length) l (l.flatMap words) := by
  induction l with
  | nil => exact ret []
  | cons a l ih =>
    obtain ⟨ha, hl⟩ := List.forall_mem_cons.1 h
    rw [List.flatMap_cons]
    exact ha.andThen ((ih hl).map (a :: ·))

/-- Items behind their number, each of them a word at least. -/
theorem counted {item : Scanner α} {words : α → List Nat} {l : List α}
    (h : ∀ a ∈ l, Reads item a (words a)) (hne : ∀ a ∈ l, words a ≠ []) :
    Reads (Scanner.counted item) l (l.length :: l.flatMap words) := by
  have hlen : l.length ≤ (l.flatMap words).length := by
    clear h
    induction l with
    | nil => exact Nat.le_refl 0
    | cons a l ih =>
      obtain ⟨ha, hl⟩ := List.forall_mem_cons.1 hne
      have hpos := List.length_pos_of_ne_nil ha
      have hrest := ih hl
      rw [List.flatMap_cons, List.length_append, List.length_cons]
      omega
  intro rest
  have hreach : reaches l.length (l.flatMap words ++ rest) = true := by
    rw [reaches_iff, List.length_append]
    omega
  simp only [Scanner.counted, Scanner.count, Scanner.andThen, Scanner.word, List.cons_append,
    hreach, ↓reduceIte]
  exact times h rest

theorem list (l : List Nat) : Reads Scanner.list l (wordsOfList l) := by
  have hitems : l.flatMap (fun w => [w]) = l := List.flatMap_singleton' l
  rw [wordsOfList]
  conv => enter [3, 2]; rw [← hitems]
  exact counted (fun w _ => word w) fun w _ => List.cons_ne_nil w []

theorem pair {s : Scanner α} {t : Scanner β} {a : α} {b : β} (h : Reads s a ws)
    (ht : Reads t b vs) : Reads (Scanner.pair s t) (a, b) (ws ++ vs) :=
  h.andThen (ht.map (a, ·))

theorem entries (l : List (Nat × List Nat)) :
    Reads (Scanner.counted (Scanner.pair Scanner.word Scanner.list)) l (wordsOfEntries l) :=
  counted (fun e _ => (word e.1).pair (list e.2)) fun _ _ => List.cons_ne_nil _ _

theorem idMap (m : IdMap (List Nat)) : Reads Scanner.idMap m (wordsOfMap m) := by
  have hmap := (entries m.entries).map IdMap.ofList
  rwa [IdMap.ofList_entries, ← wordsOfMap_eq] at hmap

theorem pairs (l : List (Nat × Nat)) :
    Reads (Scanner.counted (Scanner.pair Scanner.word Scanner.word)) l (wordsOfPairs l) :=
  counted (fun p _ => (word p.1).pair (word p.2)) fun _ _ => List.cons_ne_nil _ _

theorem real (x : Binary64) : Reads Scanner.real x [wordOfReal x] := by
  have hx : (⟨.ofNat (wordOfReal x)⟩ : Binary64) = x := by
    rw [wordOfReal, UInt64.ofNat_toNat]
  have h := (word (wordOfReal x)).map fun w => (⟨.ofNat w⟩ : Binary64)
  rwa [hx] at h

theorem reals (xs : List Binary64) : Reads Scanner.reals xs (wordsOfReals xs) := by
  have h := counted (fun x _ => real x) fun (x : Binary64) (_ : x ∈ xs) =>
    List.cons_ne_nil (wordOfReal x) []
  rwa [← List.map_eq_flatMap, ← List.length_map wordOfReal] at h

theorem flag (b : Bool) : Reads Scanner.flag b [wordOfFlag b] := by
  cases b <;> exact fun _ => rfl

theorem text (s : String) : Reads Scanner.text s (wordsOfText s) := by
  have hlen := (pack_spec (utf8Bytes s)).1
  intro rest
  have hreach : reaches (pack (utf8Bytes s)).length (pack (utf8Bytes s) ++ rest) = true := by
    rw [reaches_iff, List.length_append]
    exact Nat.le_add_right _ _
  simp only [Scanner.text, Scanner.andThen, Scanner.word, wordsOfText, List.cons_append, hreach,
    ↓reduceIte, ← hlen, List.take_left, List.drop_left, take_bytesOfWords_pack,
    textOfBytes_utf8Bytes]

theorem centroids (c : Centroids) : Reads Scanner.centroids c
    (wordsOfReals c.xs ++ wordsOfReals c.ys ++ wordsOfReals c.zs) := by
  rw [List.append_assoc]
  exact (reals c.xs).andThen ((reals c.ys).andThen ((reals c.zs).map _))

theorem optional (c : Option Centroids) :
    Reads (Scanner.optional Scanner.centroids) c (wordsOfCentroids c) := by
  cases c with
  | none => exact (flag false).andThen (ret none)
  | some c => exact (flag true).andThen ((centroids c).map some)

/-- The words of a message are scanned to this message. -/
theorem payload (e : Envelope) : Reads (scanner (kindOf e)) e (payload e) := by
  match e with
  | .peer (.add units) => exact (idMap units).map _
  | .peer .ack => exact ret _
  | .peer (.request nodes) => exact (list nodes).map _
  | .peer (.reply ids) => exact (pairs ids).map _
  | .peer (.lower bound) => exact (word bound).map _
  | .command (.partition units assignment) => exact (word units).andThen ((list assignment).map _)
  | .command .flatten => exact ret _
  | .command (.reorder start asked) => exact (word start).andThen ((idMap asked).map _)
  | .command (.deviation mean) => exact (real mean).map _
  | .contribution (.load n) => exact (word n).map _
  | .contribution .setup => exact ret _
  | .contribution (.elements s) =>
    exact (word s.first).andThen ((list s.connectivity).andThen ((optional s.centroids).map _))
  | .contribution .distributed => exact ret _
  | .contribution .flattened => exact ret _
  | .contribution (.nodes ids) => exact (list ids).map _
  | .contribution (.cost x) => exact (real x).map _
  | .contribution (.deviation x) => exact (real x).map _
  | .abort user reason => exact (flag user).andThen ((text reason).map _)

end Reads

/-! ### What fits into words -/

section

variable {ids : List Nat} {m : IdMap (List Nat)}

theorem inWords_nil : InWords [] := fun _ hw => absurd hw List.not_mem_nil

theorem inWords_cons {w : Nat} {ws : List Nat} : InWords (w :: ws) ↔ w < 2 ^ 64 ∧ InWords ws :=
  List.forall_mem_cons

theorem inWords_append {ws vs : List Nat} : InWords (ws ++ vs) ↔ InWords ws ∧ InWords vs :=
  List.forall_mem_append

theorem inWords_list : InWords (wordsOfList ids) ↔ ids.length < 2 ^ 64 ∧ InWords ids :=
  inWords_cons

theorem inWords_map (hsize : m.size < 2 ^ 64)
    (hentries : ∀ e ∈ m.entries, e.1 < 2 ^ 64 ∧ InWords (wordsOfList e.2)) :
    InWords (wordsOfMap m) := by
  refine inWords_cons.2 ⟨hsize, fun w hw => ?_⟩
  obtain ⟨e, he, hw⟩ := List.mem_flatMap.1 hw
  exact inWords_cons.2 (hentries e he) w hw

theorem inWords_pairs {ps : List (Nat × Nat)} (hlen : ps.length < 2 ^ 64)
    (h : ∀ p ∈ ps, p.1 < 2 ^ 64 ∧ p.2 < 2 ^ 64) : InWords (wordsOfPairs ps) := by
  refine inWords_cons.2 ⟨hlen, fun w hw => ?_⟩
  obtain ⟨p, hp, hw⟩ := List.mem_flatMap.1 hw
  rcases List.mem_pair.1 hw with rfl | rfl
  · exact (h p hp).1
  · exact (h p hp).2

theorem wordOfReal_lt (x : Binary64) : wordOfReal x < 2 ^ 64 := x.bits.toNat_lt

theorem inWords_real (x : Binary64) : InWords [wordOfReal x] :=
  inWords_cons.2 ⟨wordOfReal_lt x, inWords_nil⟩

theorem inWords_reals {xs : List Binary64} (h : xs.length < 2 ^ 64) :
    InWords (wordsOfReals xs) := by
  refine inWords_list.2 ⟨by rwa [List.length_map], fun w hw => ?_⟩
  obtain ⟨x, -, rfl⟩ := List.mem_map.1 hw
  exact wordOfReal_lt x

theorem wordOfFlag_lt (b : Bool) : wordOfFlag b < 2 ^ 64 := by cases b <;> decide

theorem inWords_centroids {c : Centroids} (h : ∀ a, (c.axis a).length < 2 ^ 64) :
    InWords (wordsOfCentroids (some c)) := by
  have hx : InWords (wordsOfReals c.xs) := inWords_reals (h .x)
  have hy : InWords (wordsOfReals c.ys) := inWords_reals (h .y)
  have hz : InWords (wordsOfReals c.zs) := inWords_reals (h .z)
  exact inWords_cons.2
    ⟨wordOfFlag_lt true, inWords_append.2 ⟨inWords_append.2 ⟨hx, hy⟩, hz⟩⟩

theorem inWords_text {s : String} (h : (utf8Bytes s).length < 2 ^ 64) :
    InWords (wordsOfText s) :=
  inWords_cons.2 ⟨h, (pack_spec _).2.1⟩

end

/-! ### Headers -/

theorem ofBytes_bytes {h : Header} (hv : h.version < 2 ^ 16) (hk : h.kind < 2 ^ 16)
    (hs : h.sender < 2 ^ 32) : Header.ofBytes h.bytes = h := by
  obtain ⟨version, kind, sender⟩ := h
  have hversion : ofLittleEndian (littleEndian 2 version) = version := by
    rw [ofLittleEndian_littleEndian]
    exact Nat.mod_eq_of_lt hv
  have hkind : ofLittleEndian (littleEndian 2 kind) = kind := by
    rw [ofLittleEndian_littleEndian]
    exact Nat.mod_eq_of_lt hk
  have hsender : ofLittleEndian (littleEndian 4 sender) = sender := by
    rw [ofLittleEndian_littleEndian]
    exact Nat.mod_eq_of_lt hs
  simp only [littleEndian] at hversion hkind hsender
  simp only [Header.ofBytes, Header.bytes, littleEndian, List.cons_append, List.nil_append,
    List.take, List.drop, hversion, hkind, hsender]

theorem length_bytes (h : Header) : h.bytes.length = 8 := by
  simp [Header.bytes]

theorem code_lt (k : Kind) : k.code < UInt16.size := by cases k <;> decide

theorem length_encode (sender : Nat) (e : Envelope) :
    (encode sender e).length = 8 * ((payload e).length + 1) := by
  rw [encode, List.length_append, length_bytes, length_bytesOfWords]
  omega

/-- The reader of a message finds what was written. -/
theorem decode_encode_of_inWords {sender : Nat} {e : Envelope} (hs : sender < 2 ^ 32)
    (he : InWords (payload e)) : decode (encode sender e) = .ok (sender, e) := by
  have hlen := length_encode sender e
  have hheader : Header.ofBytes ((encode sender e).take 8) =
      ⟨version, (kindOf e).code, sender⟩ := by
    have hsize : sender < UInt32.size := hs
    have hof : Header.of (kindOf e).code sender = ⟨version, (kindOf e).code, sender⟩ := by
      rw [Header.of, Nat.mod_eq_of_lt (code_lt _), Nat.mod_eq_of_lt hsize]
    rw [encode, List.take_append_of_le_length (Nat.le_of_eq (length_bytes _).symm),
      List.take_of_length_le (Nat.le_of_eq (length_bytes _)), hof]
    exact ofBytes_bytes (show version < 2 ^ 16 by decide) (code_lt _) hs
  have hwords : wordsOfBytes ((encode sender e).drop 8) = payload e := by
    rw [encode, List.drop_left' (length_bytes _), wordsOfBytes_bytesOfWords, he.map_mod]
  have hscan : scanner (kindOf e) (payload e) = .ok (e, []) := by
    simpa using Reads.payload e []
  rw [decode, if_neg (by omega)]
  simp only [hheader, ne_eq, not_true_eq_false, ↓reduceIte, Kind.ofCode?_code, hwords, hscan]

end MeshDecomp.Wire
