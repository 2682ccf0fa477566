import MeshDecomp.Proofs.Framing

/-!
What is accepted is what would be written, but for what a reader forgives: the keys of a map may
come in any order and more than once, the bytes of a text need not be characters, and anything may
fill the last word of a text.
-/

namespace MeshDecomp.Wire

variable {α β : Type} {before ws rest : List Nat} {b : List UInt8} {n : Nat}

/-! ### Scanners that forgive nothing -/

/-- Behind the words `before`, the scanner finds only what is written with the words it takes. -/
def Restores (before : List Nat) (s : Scanner α) (words : α → List Nat) : Prop :=
  ∀ ⦃ws a rest⦄, InWords ws → s ws = .ok (a, rest) → before ++ ws = words a ++ rest

namespace Restores

open Scanner

variable {s : Scanner α} {words : α → List Nat}

theorem ret {a : α} (h : before = words a) : Restores before (Scanner.ret a) words := by
  rintro ws _ _ - ⟨⟩
  rw [h]

theorem andThen {f : α → Scanner β} {more : β → List Nat} (h : Restores [] s words)
    (hf : ∀ a, Restores (before ++ words a) (f a) more) : Restores before (s.andThen f) more := by
  intro ws b rest hws hscan
  obtain ⟨a, r, hs, hr⟩ := andThen_eq_ok.1 hscan
  obtain rfl : ws = words a ++ r := h hws hs
  rw [← List.append_assoc]
  exact hf a (inWords_append.1 hws).2 hr

theorem map {f : α → β} {more : β → List Nat} (h : Restores [] s words)
    (hf : ∀ a, before ++ words a = more (f a)) : Restores before (s.map f) more :=
  h.andThen fun a => ret (hf a)

theorem word : Restores [] Scanner.word fun w => [w] := by
  rintro (_ | ⟨w, ws⟩) _ _ - ⟨⟩
  rfl

theorem times {item : Scanner α} (h : Restores [] item words) (n : Nat) :
    Restores [] (Scanner.times item n) fun l => l.flatMap words := by
  induction n with
  | zero => exact ret rfl
  | succ n ih =>
    apply h.andThen
    intro a
    apply ih.map
    intro l
    rw [List.nil_append, List.flatMap_cons]

theorem length_of_times {item : Scanner α} {l : List α}
    (h : Scanner.times item n ws = .ok (l, rest)) : l.length = n := by
  induction n generalizing ws l with
  | zero =>
    cases h
    rfl
  | succ n ih =>
    obtain ⟨a, r, hs, hr⟩ := andThen_eq_ok.1 h
    obtain ⟨l, r', hl, hret⟩ := andThen_eq_ok.1 hr
    cases hret
    rw [List.length_cons, ih hl]

theorem counted {item : Scanner α} (h : Restores [] item words) :
    Restores [] (Scanner.counted item) fun l => l.length :: l.flatMap words := by
  rintro (_ | ⟨n, ws⟩) l rest hws hscan
  · cases hscan
  rw [counted_cons] at hscan
  split at hscan
  · have hitems : ws = l.flatMap words ++ rest := h.times n (inWords_cons.1 hws).2 hscan
    show n :: ws = l.length :: l.flatMap words ++ rest
    rw [length_of_times hscan, List.cons_append, ← hitems]
  · cases hscan

theorem list : Restores [] Scanner.list wordsOfList := by
  have h := word.counted
  simp only [List.flatMap_singleton'] at h
  exact h

theorem pair {t : Scanner β} {more : β → List Nat} (h : Restores [] s words)
    (ht : Restores [] t more) :
    Restores [] (Scanner.pair s t) fun p => words p.1 ++ more p.2 :=
  h.andThen fun _ => ht.map fun _ => rfl

theorem entries : Restores [] (Scanner.counted (Scanner.pair Scanner.word Scanner.list))
    wordsOfEntries := (word.pair list).counted

theorem pairs : Restores [] (Scanner.counted (Scanner.pair Scanner.word Scanner.word))
    wordsOfPairs := (word.pair word).counted

/-- A real is its bits, and these are a whole word. -/
theorem real : Restores [] Scanner.real fun x => [wordOfReal x] := by
  intro ws x rest hws hscan
  obtain ⟨w, r, hw, hret⟩ := andThen_eq_ok.1 hscan
  cases hret
  obtain rfl : ws = w :: rest := word hws hw
  have hword : wordOfReal ⟨.ofNat w⟩ = w := by
    rw [wordOfReal, UInt64.toNat_ofNat']
    exact Nat.mod_eq_of_lt (inWords_cons.1 hws).1
  show w :: rest = wordOfReal ⟨.ofNat w⟩ :: rest
  rw [hword]

theorem reals : Restores [] Scanner.reals wordsOfReals := by
  have h := real.counted
  simp only [← List.map_eq_flatMap] at h
  intro ws xs rest hws hscan
  rw [wordsOfReals, wordsOfList, List.length_map]
  exact h hws hscan

theorem flag : Restores [] Scanner.flag fun b => [wordOfFlag b] := by
  intro ws present rest hws hscan
  obtain ⟨w, r, hw, hr⟩ := andThen_eq_ok.1 hscan
  obtain rfl : ws = w :: r := word hws hw
  split at hr
  · next h0 =>
    cases hr
    rw [h0]
    rfl
  split at hr
  · next h1 =>
    cases hr
    rw [h1]
    rfl
  · cases hr

theorem centroids : Restores [] Scanner.centroids fun c =>
    wordsOfReals c.xs ++ wordsOfReals c.ys ++ wordsOfReals c.zs :=
  reals.andThen fun _ => reals.andThen fun _ => reals.map fun _ => rfl

theorem optional : Restores [] (Scanner.optional Scanner.centroids) wordsOfCentroids := by
  apply flag.andThen
  intro present
  cases present with
  | false => exact ret rfl
  | true => exact centroids.map fun _ => rfl

/-- What is neither a map nor a text has one written form. -/
theorem payload {kind : Kind} (h : kind ∉ [.add, .reorder, .abort]) :
    Restores [] (scanner kind) payload := by
  cases kind with
  | add | reorder | abort => simp at h
  | ack | flatten | setup | distributed | flattened => exact ret rfl
  | request | nodes => exact list.map fun _ => rfl
  | reply => exact pairs.map fun _ => rfl
  | lower | load => exact word.map fun _ => rfl
  | partition => exact word.andThen fun _ => list.map fun _ => rfl
  | meanCost | cost | deviation => exact real.map fun _ => rfl
  | elements =>
    apply word.andThen
    intro first
    apply list.andThen
    intro connectivity
    apply optional.map
    intro centroids
    rfl

end Restores

/-- What the scanner finds has the property. -/
def Yields (s : Scanner α) (P : α → Prop) : Prop := ∀ ⦃ws a rest⦄, s ws = .ok (a, rest) → P a

namespace Yields

variable {s : Scanner α} {P : β → Prop}

theorem ret {b : β} (h : P b) : Yields (Scanner.ret b) P := by
  rintro ws _ _ ⟨⟩
  exact h

theorem andThen {f : α → Scanner β} (h : ∀ a, Yields (f a) P) : Yields (s.andThen f) P := by
  intro ws b rest hscan
  obtain ⟨a, r, -, hr⟩ := Scanner.andThen_eq_ok.1 hscan
  exact h a hr

theorem map {f : α → β} (h : ∀ a, P (f a)) : Yields (s.map f) P :=
  andThen fun a => ret (h a)

theorem kindOf (kind : Kind) : Yields (scanner kind) fun e => kindOf e = kind := by
  cases kind with
  | ack | flatten | setup | distributed | flattened => exact ret rfl
  | add | request | reply | lower | load | nodes | meanCost | cost | deviation =>
    exact map fun _ => rfl
  | partition | reorder | abort => exact andThen fun _ => map fun _ => rfl
  | elements => exact andThen fun _ => andThen fun _ => map fun _ => rfl

end Yields

/-! ### Messages as they would be written -/

variable {sender : Nat} {e : Envelope}

theorem inWords_wordsOfBytes (b : List UInt8) : InWords (wordsOfBytes b) := by
  fun_induction wordsOfBytes b with
  | case1 a b c d e f g h r ih =>
    exact inWords_cons.2 ⟨ofLittleEndian_lt_word (Nat.le_refl 8), ih⟩
  | case2 => exact inWords_nil

theorem littleEndian_of_length {w : List UInt8} (h : w.length = n) :
    littleEndian n (ofLittleEndian w) = w := by
  rw [← h, littleEndian_ofLittleEndian]

theorem bytesOfWords_cons (w : Nat) (ws : List Nat) :
    bytesOfWords (w :: ws) = littleEndian 8 w ++ bytesOfWords ws := List.flatMap_cons

theorem bytesOfWords_wordsOfBytes (h : b.length = 8 * n) : bytesOfWords (wordsOfBytes b) = b := by
  induction n generalizing b with
  | zero =>
    rw [List.eq_nil_of_length_eq_zero h]
    rfl
  | succ n ih =>
    obtain ⟨w, bs, rfl, hw, hbs⟩ := exists_word h
    rw [wordsOfBytes_cons hw, bytesOfWords_cons, littleEndian_of_length hw, ih hbs]

/-- The lowest eight bytes of a number are those of its rest. -/
theorem bytesOfWords_mod (ws : List Nat) :
    bytesOfWords (ws.map (· % 2 ^ 64)) = bytesOfWords ws := by
  have hword : ∀ w, littleEndian 8 (w % 2 ^ 64) = littleEndian 8 w := by
    intro w
    have hmod : ofLittleEndian (littleEndian 8 w) = w % 2 ^ 64 := ofLittleEndian_littleEndian 8 w
    rw [← hmod, littleEndian_of_length (length_littleEndian 8 w)]
  rw [bytesOfWords, List.flatMap_map]
  simp only [hword, bytesOfWords]

theorem bytes_ofBytes {header : List UInt8} (h : header.length = 8) :
    (Header.ofBytes header).bytes = header := by
  have hversion : (header.take 2).length = 2 := by simp [h]
  have hkind : ((header.drop 2).take 2).length = 2 := by simp [h]
  have hsender : ((header.drop 4).take 4).length = 4 := by simp [h]
  have hlast : (header.drop 4).take 4 = header.drop 4 := by
    apply List.take_of_length_le
    rw [List.length_drop, h]
  have hmiddle : (header.drop 2).take 2 ++ header.drop 4 = header.drop 2 := by
    have hdrop : header.drop 4 = (header.drop 2).drop 2 := by rw [List.drop_drop]
    rw [hdrop, List.take_append_drop]
  rw [Header.bytes, Header.ofBytes, littleEndian_of_length hversion, littleEndian_of_length hkind,
    littleEndian_of_length hsender, hlast, List.append_assoc, hmiddle, List.take_append_drop]

theorem drop_eight (hlen : 8 ≤ b.length) (hmod : b.length % 8 = 0) :
    b.drop 8 = bytesOfWords (body b) :=
  (bytesOfWords_wordsOfBytes (length_behind_header hlen hmod)).symm

/-- The header of a message in the bytes that it has. -/
theorem Headed.header_eq {kind : Kind} (h : Headed b kind) :
    (Header.of kind.code (Header.ofBytes (b.take 8)).sender).bytes = b.take 8 := by
  have hlen : (b.take 8).length = 8 := List.length_take_of_le h.length
  have hsender : (Header.ofBytes (b.take 8)).sender < UInt32.size := by
    have hfour : (((b.take 8).drop 4).take 4).length = 4 := by
      rw [List.length_take, List.length_drop, hlen]
      rfl
    have hlt := ofLittleEndian_lt (((b.take 8).drop 4).take 4)
    rw [hfour] at hlt
    exact hlt
  have hof :
      Header.of kind.code (Header.ofBytes (b.take 8)).sender = Header.ofBytes (b.take 8) := by
    rw [Header.of, Nat.mod_eq_of_lt (code_lt kind), Nat.mod_eq_of_lt hsender, ← h.version,
      Kind.code_of_ofCode? h.code]
  rw [hof, bytes_ofBytes hlen]

/-- A message that is accepted is written back to the same bytes exactly if its words are. -/
theorem encode_eq_iff_payload (h : decode b = .ok (sender, e)) :
    encode sender e = b ↔ (payload e).map (· % 2 ^ 64) = body b := by
  obtain ⟨hmod, rfl, kind, hhead, hscan⟩ := of_decode_eq_ok h
  obtain rfl := Yields.kindOf kind hscan
  constructor
  · intro heq
    rw [← wordsOfBytes_bytesOfWords, ← congrArg body heq, body, encode,
      List.drop_left' (length_bytes _)]
  · intro hbody
    rw [encode, hhead.header_eq, ← bytesOfWords_mod, hbody, ← drop_eight hhead.length hmod,
      List.take_append_drop]

/-! ### Maps -/

/-- The keys of `n` entries: behind each key stands the length of its list. -/
def keysOfEntries : (n : Nat) → List Nat → List Nat
  | n + 1, key :: length :: ws => key :: keysOfEntries n (ws.drop length)
  | _, _ => []

/-- The keys of a map, in the order in which its words have them. -/
def writtenKeys : List Nat → List Nat
  | [] => []
  | n :: ws => keysOfEntries n ws

section

variable {l : List (Nat × List Nat)} {m : IdMap (List Nat)}

theorem writtenKeys_wordsOfEntries : writtenKeys (wordsOfEntries l) = l.map Prod.fst := by
  rw [wordsOfEntries, writtenKeys]
  induction l with
  | nil => rfl
  | cons e l ih =>
    rw [List.flatMap_cons, wordsOfList, List.length_cons, List.cons_append, List.cons_append,
      keysOfEntries, List.drop_left, ih, List.map_cons]

theorem wordsOfEntries_injective {l' : List (Nat × List Nat)}
    (h : wordsOfEntries l = wordsOfEntries l') : l = l' := by
  have hread := Reads.entries l []
  rw [h, Reads.entries l' []] at hread
  cases hread
  rfl

/-- A map is read from entries that may come in any order. -/
theorem idMap_eq_ok (hws : InWords ws) (h : Scanner.idMap ws = .ok (m, rest)) :
    ∃ l, m = .ofList l ∧ ws = wordsOfEntries l ++ rest := by
  obtain ⟨l, r, hl, hret⟩ := Scanner.andThen_eq_ok.1 h
  cases hret
  exact ⟨l, rfl, Restores.entries hws hl⟩

theorem inWords_wordsOfMap_ofList (h : InWords (wordsOfEntries l)) :
    InWords (wordsOfMap (.ofList l)) := by
  obtain ⟨hlen, hwords⟩ := inWords_cons.1 h
  apply inWords_map (Nat.lt_of_le_of_lt (IdMap.size_ofList_le l) hlen)
  intro e he
  have hentry : InWords (e.1 :: wordsOfList e.2) := by
    intro w hw
    exact hwords w (List.mem_flatMap.2 ⟨e, IdMap.mem_of_mem_entries_ofList he, hw⟩)
  exact inWords_cons.1 hentry

/-- A map is written back in the order of its keys, each once. -/
theorem wordsOfMap_ofList_eq_iff :
    wordsOfMap (.ofList l) = wordsOfEntries l ↔ (l.map Prod.fst).Pairwise (· < ·) := by
  rw [wordsOfMap_eq]
  constructor
  · intro heq
    have hl := wordsOfEntries_injective heq
    rw [← hl]
    exact IdMap.ascending_keys _
  · intro hkeys
    rw [IdMap.entries_ofList (List.pairwise_map.1 hkeys)]

end

/-! ### Texts -/

/-- The number of bytes in the text of a message; the header and a flag stand before it. -/
def textLength (b : List UInt8) : Nat := ofLittleEndian ((b.drop 16).take 8)

def textBytes (b : List UInt8) : List UInt8 := (b.drop 24).take (textLength b)

/-- What follows a text up to the end of its last word. -/
def padding (b : List UInt8) : List UInt8 := b.drop (24 + textLength b)

section

variable {bs : List UInt8} {more : List Nat}

/-- Only bytes that are no characters are read as others. -/
theorem utf8Bytes_textOfBytes_iff :
    utf8Bytes (textOfBytes bs) = bs ↔ bs.toByteArray.IsValidUTF8 := by
  constructor
  · intro h
    have hbytes : bs.toByteArray = (textOfBytes bs).toList.utf8Encode := by
      rw [List.utf8Encode, ← utf8Bytes, h]
    exact ⟨_, hbytes⟩
  · rintro ⟨chars, hchars⟩
    have hbs : bs = utf8Bytes (String.ofList chars) := by
      rw [utf8Bytes, String.toList_ofList]
      exact List.toByteArray_inj.1 hchars
    rw [hbs, textOfBytes_utf8Bytes]

theorem bytesOfWords_injective {vs : List Nat} (hws : InWords ws) (hvs : InWords vs)
    (h : bytesOfWords ws = bytesOfWords vs) : ws = vs := by
  rw [← hws.map_mod, ← hvs.map_mod, ← wordsOfBytes_bytesOfWords, h, wordsOfBytes_bytesOfWords]

/-- Words behind a number of bytes are those of a text exactly if they begin with its bytes and
zeros follow. -/
theorem pack_eq_iff (hlen : more.length = (n + 7) / 8) (hwords : InWords (n :: more)) :
    bs.length % 2 ^ 64 = n ∧ pack bs = more ↔
      bs = (bytesOfWords more).take n ∧ ∀ x ∈ (bytesOfWords more).drop n, x = 0 := by
  obtain ⟨hpack, hpacked, hbytes⟩ := pack_spec bs
  obtain ⟨hn, hmore⟩ := inWords_cons.1 hwords
  have hall := length_bytesOfWords more
  constructor
  · rintro ⟨hcount, rfl⟩
    -- the number may be cut to a word, but not without a change in how many words follow
    have hsize : bs.length = n := by omega
    rw [hbytes, List.take_left' hsize, List.drop_left' hsize]
    refine ⟨rfl, ?_⟩
    intro x hx
    exact List.eq_of_mem_replicate hx
  · rintro ⟨hbegin, hzeros⟩
    have hsize : bs.length = n := by
      rw [hbegin, List.length_take]
      omega
    have hrest : (bytesOfWords more).drop n = List.replicate (8 * (pack bs).length - n) 0 := by
      rw [List.eq_replicate_iff, List.length_drop]
      exact ⟨by omega, hzeros⟩
    constructor
    · omega
    · apply bytesOfWords_injective hpacked hmore
      rw [hbytes, hsize, ← hrest, hbegin, List.take_append_drop]

/-- A text is read from the words behind its number of bytes. -/
theorem abort_eq_ok (hws : InWords ws) (h : scanner .abort ws = .ok (e, [])) :
    ∃ user n more reason, e = .abort user reason ∧ ws = wordOfFlag user :: n :: more ∧
      more.length = (n + 7) / 8 ∧ reason = textOfBytes ((bytesOfWords more).take n) := by
  obtain ⟨user, r, hflag, hr⟩ := Scanner.andThen_eq_ok.1 h
  obtain ⟨reason, r', htext, hret⟩ := Scanner.andThen_eq_ok.1 hr
  cases hret
  obtain rfl : ws = wordOfFlag user :: r := Restores.flag hws hflag
  match r with
  | [] => cases htext
  | n :: more =>
    rw [Scanner.text_cons] at htext
    split at htext
    · next hle =>
      simp only [Except.ok.injEq, Prod.mk.injEq, List.drop_eq_nil_iff] at htext
      obtain ⟨rfl, hall⟩ := htext
      refine ⟨user, n, more, _, rfl, rfl, Nat.le_antisymm hall hle, ?_⟩
      rw [List.take_of_length_le hall]
    · cases htext

/-- Where the words of a text stand among the bytes of its message. -/
theorem layout_of_body {flag : Nat} (hlen : 8 ≤ b.length) (hmod : b.length % 8 = 0)
    (hbody : body b = flag :: n :: more) :
    textBytes b = (bytesOfWords more).take n ∧ padding b = (bytesOfWords more).drop n := by
  have hwords : InWords (flag :: n :: more) := hbody ▸ inWords_wordsOfBytes _
  have hbehind := drop_eight hlen hmod
  rw [hbody, bytesOfWords_cons, bytesOfWords_cons] at hbehind
  have hsixteen : b.drop 16 = littleEndian 8 n ++ bytesOfWords more := by
    have hdrop : b.drop 16 = (b.drop 8).drop 8 := by rw [List.drop_drop]
    rw [hdrop, hbehind, List.drop_left' (length_littleEndian 8 flag)]
  have htext : b.drop 24 = bytesOfWords more := by
    have hdrop : b.drop 24 = (b.drop 16).drop 8 := by rw [List.drop_drop]
    rw [hdrop, hsixteen, List.drop_left' (length_littleEndian 8 n)]
  have hnumber : textLength b = n := by
    have hn : n < 2 ^ 64 := (inWords_cons.1 (inWords_cons.1 hwords).2).1
    rw [textLength, hsixteen, List.take_left' (length_littleEndian 8 n),
      ofLittleEndian_littleEndian]
    exact Nat.mod_eq_of_lt hn
  rw [textBytes, padding, hnumber, htext, ← List.drop_drop, htext]
  exact ⟨rfl, rfl⟩

end

/-! ### What a message leaves open -/

/-- The keys of a map ascend; a text consists of characters, and zeros follow it. -/
def Canonical (b : List UInt8) : Kind → Prop
  | .add => (writtenKeys (body b)).Pairwise (· < ·)
  | .reorder => (writtenKeys (body b).tail).Pairwise (· < ·)
  | .abort => (textBytes b).toByteArray.IsValidUTF8 ∧ ∀ x ∈ padding b, x = 0
  | _ => True

section

variable {kind : Kind}

theorem payload_eq_body (hkind : kind ∉ [.add, .reorder, .abort])
    (h : scanner kind (body b) = .ok (e, [])) : (payload e).map (· % 2 ^ 64) = body b := by
  have hwords : InWords (body b) := inWords_wordsOfBytes _
  have hpayload := Restores.payload hkind hwords h
  rw [List.nil_append, List.append_nil] at hpayload
  rw [← hpayload, hwords.map_mod]

theorem canonical_add_iff (h : scanner .add (body b) = .ok (e, [])) :
    (payload e).map (· % 2 ^ 64) = body b ↔ Canonical b .add := by
  have hwords : InWords (body b) := inWords_wordsOfBytes _
  obtain ⟨units, r, hmap, hret⟩ := Scanner.andThen_eq_ok.1 h
  cases hret
  obtain ⟨l, rfl, hl⟩ := idMap_eq_ok hwords hmap
  rw [List.append_nil] at hl
  rw [hl] at hwords
  rw [Canonical, payload, (inWords_wordsOfMap_ofList hwords).map_mod, hl,
    wordsOfMap_ofList_eq_iff, writtenKeys_wordsOfEntries]

theorem canonical_reorder_iff (h : scanner .reorder (body b) = .ok (e, [])) :
    (payload e).map (· % 2 ^ 64) = body b ↔ Canonical b .reorder := by
  have hwords : InWords (body b) := inWords_wordsOfBytes _
  obtain ⟨start, r, hstart, hr⟩ := Scanner.andThen_eq_ok.1 h
  obtain ⟨asked, r', hmap, hret⟩ := Scanner.andThen_eq_ok.1 hr
  cases hret
  have hbody : body b = start :: r := Restores.word hwords hstart
  rw [hbody] at hwords
  obtain ⟨hword, hrest⟩ := inWords_cons.1 hwords
  obtain ⟨l, rfl, hl⟩ := idMap_eq_ok hrest hmap
  rw [List.append_nil] at hl
  rw [hl] at hrest
  rw [Canonical, payload, List.map_cons, (inWords_wordsOfMap_ofList hrest).map_mod,
    Nat.mod_eq_of_lt hword, hbody, hl, List.cons.injEq, wordsOfMap_ofList_eq_iff, List.tail_cons,
    writtenKeys_wordsOfEntries]
  exact and_iff_right rfl

theorem canonical_abort_iff (hlen : 8 ≤ b.length) (hmod : b.length % 8 = 0)
    (h : scanner .abort (body b) = .ok (e, [])) :
    (payload e).map (· % 2 ^ 64) = body b ↔ Canonical b .abort := by
  have hwords : InWords (body b) := inWords_wordsOfBytes _
  obtain ⟨user, n, more, reason, rfl, hbody, hmore, hreason⟩ := abort_eq_ok hwords h
  obtain ⟨htext, hpadding⟩ := layout_of_body hlen hmod hbody
  rw [hbody] at hwords
  have hpacked := (pack_spec (utf8Bytes reason)).2.1
  rw [Canonical, payload, wordsOfText, List.map_cons, List.map_cons, hpacked.map_mod,
    Nat.mod_eq_of_lt (wordOfFlag_lt user), hbody, List.cons.injEq, List.cons.injEq, htext,
    hpadding, ← utf8Bytes_textOfBytes_iff, ← hreason,
    ← pack_eq_iff hmore (inWords_cons.1 hwords).2]
  exact and_iff_right rfl

theorem payload_eq_body_iff (hhead : Headed b kind) (hmod : b.length % 8 = 0)
    (h : scanner kind (body b) = .ok (e, [])) :
    (payload e).map (· % 2 ^ 64) = body b ↔ Canonical b kind := by
  cases kind with
  | add => exact canonical_add_iff h
  | reorder => exact canonical_reorder_iff h
  | abort => exact canonical_abort_iff hhead.length hmod h
  | _ => exact iff_of_true (payload_eq_body (by decide) h) trivial

end

theorem encode_of_plain (hkind : kindOf e ∉ [.add, .reorder, .abort])
    (h : decode b = .ok (sender, e)) : encode sender e = b := by
  obtain ⟨-, -, kind, -, hscan⟩ := of_decode_eq_ok h
  obtain rfl := Yields.kindOf kind hscan
  exact (encode_eq_iff_payload h).2 (payload_eq_body hkind hscan)

/-- What is accepted is written back to the same bytes exactly if it is canonical. But for maps and
texts, no two messages are read alike. -/
theorem encode_eq_iff_canonical (h : decode b = .ok (sender, e)) :
    (encode sender e = b ↔ Canonical b (kindOf e)) ∧
    (kindOf e ∉ [.add, .reorder, .abort] →
      encode sender e = b ∧ ∀ b', decode b' = .ok (sender, e) → b' = b) := by
  constructor
  · obtain ⟨hmod, -, kind, hhead, hscan⟩ := of_decode_eq_ok h
    obtain rfl := Yields.kindOf kind hscan
    exact (encode_eq_iff_payload h).trans (payload_eq_body_iff hhead hmod hscan)
  · intro hkind
    have hb := encode_of_plain hkind h
    refine ⟨hb, ?_⟩
    intro b' h'
    exact (encode_of_plain hkind h').symm.trans hb

/-- Two units under their keys in this order. -/
def unitsBytes (first second : Nat) : List UInt8 :=
  (Header.of Kind.add.code 1).bytes ++ bytesOfWords [2, first, 0, second, 1, 7]

/-- A text of two bytes, and what stands behind them. -/
def failureBytes (behind : List UInt8) : List UInt8 :=
  (Header.of Kind.abort.code 0).bytes ++ bytesOfWords [0, 2] ++ ([104, 105] ++ behind)

/-- Keys in their order and out of it, a text with something behind it, and a bound, which is
written in one way. -/
theorem accepted_forms :
    (decode (unitsBytes 2 5) = .ok (1, .peer (.add (.ofList [(2, []), (5, [7])]))) ∧
      encode 1 (.peer (.add (.ofList [(2, []), (5, [7])]))) = unitsBytes 2 5) ∧
    (decode (unitsBytes 5 2) = .ok (1, .peer (.add (.ofList [(5, []), (2, [7])]))) ∧
      encode 1 (.peer (.add (.ofList [(5, []), (2, [7])]))) ≠ unitsBytes 5 2) ∧
    (decode (failureBytes [0, 0, 0, 0, 0, 9]) = .ok (0, .abort false "hi") ∧
      encode 0 (.abort false "hi") ≠ failureBytes [0, 0, 0, 0, 0, 9]) ∧
    ∀ b, decode b = .ok (3, .peer (.lower 9)) → b = encode 3 (.peer (.lower 9)) := by
  have hsorted : decode (unitsBytes 2 5) = .ok (1, .peer (.add (.ofList [(2, []), (5, [7])]))) := by
    rfl
  have hunsorted : decode (unitsBytes 5 2) =
      .ok (1, .peer (.add (.ofList [(5, []), (2, [7])]))) := by rfl
  have hfilled : decode (failureBytes [0, 0, 0, 0, 0, 9]) = .ok (0, .abort false "hi") := by rfl
  refine ⟨⟨hsorted, ?_⟩, ⟨hunsorted, ?_⟩, ⟨hfilled, ?_⟩, ?_⟩
  · apply (encode_eq_iff_canonical hsorted).1.2
    show (writtenKeys (body (unitsBytes 2 5))).Pairwise (· < ·)
    decide
  · apply mt (encode_eq_iff_canonical hunsorted).1.1
    show ¬ (writtenKeys (body (unitsBytes 5 2))).Pairwise (· < ·)
    decide
  · apply mt (encode_eq_iff_canonical hfilled).1.1
    intro hcanonical
    exact absurd hcanonical.2 (by decide)
  · intro b h
    exact ((encode_eq_iff_canonical h).2 (by decide)).1.symm

end MeshDecomp.Wire
