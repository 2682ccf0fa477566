import MeshDecomp.Proofs.Codec

/-!
Messages tell where they end. Every scanner takes exactly the words of what it finds, so a message
that lost its end is told from a whole one, and so is a message that goes on.
-/

namespace MeshDecomp.Wire

variable {α β : Type} {used more ws rest : List Nat} {b extra : List UInt8} {k n : Nat}

/-! ### The words of bytes -/

theorem wordsOfBytes_cons {w : List UInt8} (hw : w.length = 8) (bs : List UInt8) :
    wordsOfBytes (w ++ bs) = ofLittleEndian w :: wordsOfBytes bs := by
  match w, hw with
  | [_, _, _, _, _, _, _, _], _ => rfl

/-- Bytes of whole words begin with a word. -/
theorem exists_word (h : b.length = 8 * (n + 1)) :
    ∃ w bs, b = w ++ bs ∧ w.length = 8 ∧ bs.length = 8 * n := by
  refine ⟨b.take 8, b.drop 8, (List.take_append_drop 8 b).symm, ?_, ?_⟩
  · rw [List.length_take]
    omega
  · rw [List.length_drop]
    omega

theorem wordsOfBytes_append (h : b.length = 8 * n) (extra : List UInt8) :
    wordsOfBytes (b ++ extra) = wordsOfBytes b ++ wordsOfBytes extra := by
  induction n generalizing b with
  | zero =>
    rw [List.eq_nil_of_length_eq_zero h]
    rfl
  | succ n ih =>
    obtain ⟨w, bs, rfl, hw, hbs⟩ := exists_word h
    rw [List.append_assoc, wordsOfBytes_cons hw, wordsOfBytes_cons hw, ih hbs]
    rfl

theorem length_wordsOfBytes (h : b.length = 8 * n) : (wordsOfBytes b).length = n := by
  induction n generalizing b with
  | zero =>
    rw [List.eq_nil_of_length_eq_zero h]
    rfl
  | succ n ih =>
    obtain ⟨w, bs, rfl, hw, hbs⟩ := exists_word h
    rw [wordsOfBytes_cons hw, List.length_cons, ih hbs]

theorem wordsOfBytes_take (h : 8 * n ≤ b.length) :
    wordsOfBytes (b.take (8 * n)) = (wordsOfBytes b).take n := by
  have hlen : (b.take (8 * n)).length = 8 * n := List.length_take_of_le h
  have hsplit := wordsOfBytes_append hlen (b.drop (8 * n))
  rw [List.take_append_drop] at hsplit
  rw [hsplit, List.take_left' (length_wordsOfBytes hlen)]

/-! ### Scanners -/

namespace Scanner

variable {s : Scanner α} {f : α → Scanner β} {item : Scanner α} {a : α} {b : β} {e : ScanFault}

theorem andThen_of_ok (h : s ws = .ok (a, rest)) : s.andThen f ws = f a rest := by
  rw [andThen, h]

theorem andThen_of_error (h : s ws = .error e) : s.andThen f ws = .error e := by
  rw [andThen, h]

theorem andThen_eq_ok :
    s.andThen f ws = .ok (b, rest) ↔ ∃ a r, s ws = .ok (a, r) ∧ f a r = .ok (b, rest) := by
  cases hs : s ws with
  | ok p =>
    obtain ⟨a, r⟩ := p
    simp [andThen_of_ok hs]
  | error e => simp [andThen_of_error hs]

/-- A number of items that leaves no word for each of them is not looked into. -/
theorem counted_cons :
    counted item (n :: ws) = if n ≤ ws.length then times item n ws else .error .short := by
  have hword : word (n :: ws) = .ok (n, ws) := rfl
  unfold counted count
  by_cases hn : n ≤ ws.length
  · rw [if_pos hn]
    apply andThen_of_ok
    rw [andThen_of_ok hword, if_pos (reaches_iff.2 hn)]
  · rw [if_neg hn]
    apply andThen_of_error
    rw [andThen_of_ok hword, if_neg (mt reaches_iff.1 hn)]

/-- A text of `n` bytes takes as many words as it takes to hold them. -/
theorem text_cons :
    text (n :: ws) = if (n + 7) / 8 ≤ ws.length then
      .ok (textOfBytes ((bytesOfWords (ws.take ((n + 7) / 8))).take n), ws.drop ((n + 7) / 8))
    else .error .short := by
  have hword : word (n :: ws) = .ok (n, ws) := rfl
  unfold text
  rw [andThen_of_ok hword]
  simp only [reaches_iff]

end Scanner

/-! ### Scanners take what they find -/

/-- The scanner takes exactly `used` for `a`: what follows it is left, and with less it runs
short. -/
structure Takes (s : Scanner α) (a : α) (used : List Nat) : Prop where
  reads : Reads s a used
  short : ∀ n < used.length, s (used.take n) = .error .short

/-- What the scanner accepts begins with the words that it takes. -/
def Exact (s : Scanner α) : Prop :=
  ∀ ⦃ws a rest⦄, s ws = .ok (a, rest) → ∃ used, ws = used ++ rest ∧ Takes s a used

theorem Takes.andThen {s : Scanner α} {f : α → Scanner β} {a : α} {b : β} (h : Takes s a used)
    (hf : Takes (f a) b more) : Takes (s.andThen f) b (used ++ more) where
  reads := h.reads.andThen hf.reads
  short := by
    intro n hn
    by_cases hlt : n < used.length
    · rw [List.take_append_of_le_length (Nat.le_of_lt hlt)]
      exact Scanner.andThen_of_error (h.short n hlt)
    · have htake : (used ++ more).take n = used ++ more.take (n - used.length) := by
        rw [List.take_append, List.take_of_length_le (Nat.le_of_not_lt hlt)]
      rw [htake, Scanner.andThen_of_ok (h.reads _)]
      apply hf.short
      rw [List.length_append] at hn
      omega

namespace Exact

open Scanner

theorem ret (a : α) : Exact (Scanner.ret a) := by
  rintro ws _ _ ⟨⟩
  exact ⟨[], rfl, Reads.ret a, fun n hn => absurd hn (Nat.not_lt_zero n)⟩

theorem andThen {s : Scanner α} {f : α → Scanner β} (h : Exact s) (hf : ∀ a, Exact (f a)) :
    Exact (s.andThen f) := by
  intro ws b rest hws
  obtain ⟨a, r, hs, hr⟩ := andThen_eq_ok.1 hws
  obtain ⟨used, rfl, hused⟩ := h hs
  obtain ⟨more, rfl, hmore⟩ := hf a hr
  exact ⟨used ++ more, (List.append_assoc used more rest).symm, hused.andThen hmore⟩

theorem map {s : Scanner α} (h : Exact s) (f : α → β) : Exact (s.map f) :=
  h.andThen fun a => ret (f a)

theorem word : Exact Scanner.word := by
  rintro (_ | ⟨w, ws⟩) _ _ ⟨⟩
  refine ⟨[w], rfl, Reads.word w, ?_⟩
  intro n hn
  rw [Nat.lt_one_iff.1 hn]
  rfl

theorem times {item : Scanner α} (h : Exact item) (n : Nat) : Exact (Scanner.times item n) := by
  induction n with
  | zero => exact ret []
  | succ n ih => exact h.andThen fun a => ih.map (a :: ·)

theorem pair {s : Scanner α} {t : Scanner β} (h : Exact s) (ht : Exact t) :
    Exact (Scanner.pair s t) :=
  h.andThen fun a => ht.map (a, ·)

/-- Items that take a word each. -/
theorem le_length_of_times {item : Scanner α} {l : List α} (h : Exact item)
    (hnil : item [] = .error .short) (hws : Scanner.times item n ws = .ok (l, rest)) :
    n + rest.length ≤ ws.length := by
  induction n generalizing ws l with
  | zero =>
    cases hws
    omega
  | succ n ih =>
    obtain ⟨a, r, hs, hr⟩ := andThen_eq_ok.1 hws
    obtain ⟨l, r', hl, hret⟩ := andThen_eq_ok.1 hr
    cases hret
    obtain ⟨used, rfl, hused⟩ := h hs
    have hne : used ≠ [] := by
      rintro rfl
      have hread := hused.reads []
      rw [List.append_nil, hnil] at hread
      cases hread
    have hpos := List.length_pos_of_ne_nil hne
    have hrest := ih hl
    rw [List.length_append]
    omega

/-- Behind a number of items the scanner takes exactly these. With fewer words than items it runs
short before it comes to them. -/
theorem counted {item : Scanner α} (h : Exact item) (hnil : item [] = .error .short) :
    Exact (Scanner.counted item) := by
  rintro (_ | ⟨n, ws⟩) l rest hws
  · cases hws
  rw [counted_cons] at hws
  split at hws
  · obtain ⟨used, rfl, hused⟩ := h.times n hws
    have hread := hused.reads []
    rw [List.append_nil] at hread
    have hlen : n ≤ used.length := le_length_of_times h hnil hread
    refine ⟨n :: used, rfl, ?_, ?_⟩
    · intro more
      have hle : n ≤ (used ++ more).length := by
        rw [List.length_append]
        omega
      rw [List.cons_append, counted_cons, if_pos hle]
      exact hused.reads more
    · rintro (_ | m) hm
      · rfl
      rw [List.take_succ_cons, counted_cons]
      -- what is left may already be too little for the number, or too little only for some item
      split
      · exact hused.short m (Nat.lt_of_succ_lt_succ hm)
      · rfl
  · cases hws

theorem list : Exact Scanner.list := word.counted rfl

theorem idMap : Exact Scanner.idMap := ((word.pair list).counted rfl).map _

theorem real : Exact Scanner.real := word.map _

theorem reals : Exact Scanner.reals := real.counted rfl

theorem flag : Exact Scanner.flag := by
  apply word.andThen
  intro w
  by_cases h0 : w = 0
  · subst h0
    exact ret false
  by_cases h1 : w = 1
  · subst h1
    exact ret true
  · intro ws b rest hws
    simp [h0, h1] at hws

theorem text : Exact Scanner.text := by
  rintro (_ | ⟨n, ws⟩) s rest hws
  · cases hws
  rw [text_cons] at hws
  split at hws
  · next hle =>
    have hlen : (ws.take ((n + 7) / 8)).length = (n + 7) / 8 := List.length_take_of_le hle
    cases hws
    refine ⟨n :: ws.take ((n + 7) / 8), ?_, ?_, ?_⟩
    · rw [List.cons_append, List.take_append_drop]
    · intro more
      have hreach : (n + 7) / 8 ≤ (ws.take ((n + 7) / 8) ++ more).length := by
        rw [List.length_append]
        omega
      rw [List.cons_append, text_cons, if_pos hreach, List.take_left' hlen, List.drop_left' hlen]
    · rintro (_ | m) hm
      · rfl
      rw [List.length_cons, hlen] at hm
      rw [List.take_succ_cons, text_cons, if_neg]
      rw [List.length_take, hlen]
      omega
  · cases hws

theorem centroids : Exact Scanner.centroids :=
  reals.andThen fun _ => reals.andThen fun _ => reals.map _

theorem optional {s : Scanner α} (h : Exact s) : Exact (Scanner.optional s) := by
  apply flag.andThen
  intro present
  cases present with
  | false => exact ret none
  | true => exact h.map some

theorem scanner (k : Kind) : Exact (Wire.scanner k) := by
  cases k with
  | add => exact idMap.map _
  | ack | flatten | setup | distributed | flattened => exact ret _
  | request | nodes => exact list.map _
  | reply => exact ((word.pair word).counted rfl).map _
  | lower | load => exact word.map _
  | partition => exact word.andThen fun _ => list.map _
  | reorder => exact word.andThen fun _ => idMap.map _
  | meanCost | cost | deviation => exact real.map _
  | elements => exact word.andThen fun _ => list.andThen fun _ => centroids.optional.map _
  | abort => exact flag.andThen fun _ => text.map _

end Exact

/-! ### Messages -/

/-- The words behind the header. -/
def body (b : List UInt8) : List Nat := wordsOfBytes (b.drop 8)

variable {kind : Kind} {sender : Nat} {e : Envelope}

/-- A message of some kind begins with this header. -/
structure Headed (b : List UInt8) (kind : Kind) : Prop where
  length : 8 ≤ b.length
  version : (Header.ofBytes (b.take 8)).version = version
  code : Kind.ofCode? (Header.ofBytes (b.take 8)).kind = some kind

theorem Headed.congr (h : Headed b kind) {b' : List UInt8} (hlen : 8 ≤ b'.length)
    (heq : b'.take 8 = b.take 8) : Headed b' kind := by
  constructor
  · exact hlen
  · rw [heq, h.version]
  · rw [heq, h.code]

theorem decode_of_length (h : b.length < 8 ∨ b.length % 8 ≠ 0) :
    decode b = .error (.truncated b.length) := if_pos h

/-- Behind a header the scanner of its kind decides. -/
theorem Headed.decode_eq (h : Headed b kind) (hmod : b.length % 8 = 0) :
    decode b = match scanner kind (body b) with
      | .error .short => .error (.truncated b.length)
      | .error (.flag f) => .error (.invalidFlag f)
      | .ok (e, []) => .ok ((Header.ofBytes (b.take 8)).sender, e)
      | .ok (_, rest) => .error (.trailing (8 * rest.length)) := by
  have hlen := h.length
  rw [decode, if_neg (by omega)]
  simp only [h.version, h.code, ne_eq, not_true_eq_false, ↓reduceIte]
  rfl

/-- What is accepted has a header, and the scanner of its kind takes all that is behind it. -/
theorem of_decode_eq_ok (h : decode b = .ok (sender, e)) :
    b.length % 8 = 0 ∧ (Header.ofBytes (b.take 8)).sender = sender ∧
      ∃ kind, Headed b kind ∧ scanner kind (body b) = .ok (e, []) := by
  have hlen : ¬ (b.length < 8 ∨ b.length % 8 ≠ 0) := by
    intro hshort
    rw [decode_of_length hshort] at h
    cases h
  rw [decode, if_neg hlen] at h
  dsimp only at h
  split at h
  · cases h
  next hversion =>
  split at h
  · cases h
  next kind hcode =>
  split at h
  · cases h
  · cases h
  · next e' hscan =>
    cases h
    exact ⟨by omega, rfl, kind, ⟨by omega, not_not.1 hversion, hcode⟩, hscan⟩
  · cases h

theorem length_behind_header (hlen : 8 ≤ b.length) (hmod : b.length % 8 = 0) :
    (b.drop 8).length = 8 * (b.length / 8 - 1) := by
  rw [List.length_drop]
  omega

theorem body_append (hlen : 8 ≤ b.length) (hmod : b.length % 8 = 0) (extra : List UInt8) :
    body (b ++ extra) = body b ++ wordsOfBytes extra := by
  rw [body, List.drop_append_of_le_length hlen,
    wordsOfBytes_append (length_behind_header hlen hmod)]
  rfl

theorem body_take (h : 8 * n + 8 ≤ b.length) : body (b.take (8 * n + 8)) = (body b).take n := by
  have hle : 8 * n ≤ (b.drop 8).length := by
    rw [List.length_drop]
    omega
  rw [body, List.drop_take, Nat.add_sub_cancel, wordsOfBytes_take hle]
  rfl

/-- A message without its end is told to be cut off, and its length is told. -/
theorem decode_take (h : decode b = .ok (sender, e)) (hn : n < b.length) :
    decode (b.take n) = .error (.truncated n) := by
  have hlen : (b.take n).length = n := List.length_take_of_le (Nat.le_of_lt hn)
  obtain ⟨hmod, -, kind, hhead, hscan⟩ := of_decode_eq_ok h
  by_cases hword : n < 8 ∨ n % 8 ≠ 0
  · rw [← hlen] at hword
    rw [decode_of_length hword, hlen]
  · -- whole words are left, and the header is among them: the scanner has to notice
    obtain ⟨m, rfl⟩ : ∃ m, n = 8 * m + 8 := ⟨n / 8 - 1, by omega⟩
    have hhead' : Headed (b.take (8 * m + 8)) kind := by
      apply hhead.congr
      · omega
      · rw [List.take_take, Nat.min_eq_left (by omega)]
    obtain ⟨used, hused, htake⟩ := Exact.scanner kind hscan
    rw [List.append_nil] at hused
    have hshort : m < used.length := by
      rw [← hused, body, length_wordsOfBytes (length_behind_header hhead.length hmod)]
      omega
    have hcut : scanner kind (body (b.take (8 * m + 8))) = .error .short := by
      rw [body_take (Nat.le_of_lt hn), hused]
      exact htake.short m hshort
    rw [hhead'.decode_eq (by omega), hcut, hlen]

/-- A message that goes on is told to do so if whole words follow. -/
theorem decode_append (h : decode b = .ok (sender, e)) (hne : extra ≠ []) :
    decode (b ++ extra) = .error (if 8 ∣ extra.length then .trailing extra.length
      else .truncated (b.length + extra.length)) := by
  have hlen : (b ++ extra).length = b.length + extra.length := List.length_append
  have hpos := List.length_pos_of_ne_nil hne
  obtain ⟨hmod, -, kind, hhead, hscan⟩ := of_decode_eq_ok h
  have hhead8 := hhead.length
  by_cases hword : 8 ∣ extra.length
  · obtain ⟨m, hm⟩ := hword
    have hhead' : Headed (b ++ extra) kind := by
      apply hhead.congr
      · omega
      · rw [List.take_append_of_le_length hhead8]
    obtain ⟨used, hused, htake⟩ := Exact.scanner kind hscan
    rw [List.append_nil] at hused
    have hlong : scanner kind (body (b ++ extra)) = .ok (e, wordsOfBytes extra) := by
      rw [body_append hhead8 hmod, hused]
      exact htake.reads _
    have hextra := length_wordsOfBytes hm
    rw [hhead'.decode_eq (by omega), hlong, if_pos ⟨m, hm⟩]
    cases hrest : wordsOfBytes extra with
    | nil =>
      rw [hrest, List.length_nil] at hextra
      omega
    | cons w ws =>
      rw [hrest] at hextra
      dsimp only
      rw [hextra, hm]
  · rw [if_neg hword, decode_of_length (by omega), hlen]

theorem eq_of_decode_of_begins {b' : List UInt8} {p p' : Nat × Envelope} (h : decode b = .ok p)
    (h' : decode b' = .ok p') (hbegin : b <+: b') : b = b' := by
  obtain ⟨extra, rfl⟩ := hbegin
  by_contra hne
  have hextra : extra ≠ [] := by
    rintro rfl
    exact hne (List.append_nil b).symm
  rw [decode_append h hextra] at h'
  cases h'

/-- A message that lost its end is always told as one that is cut off, and one that goes on by the
bytes behind it. No message begins with another one. -/
theorem messages_are_framed {p : Nat × Envelope} (h : decode b = .ok p) :
    (∀ n < b.length, decode (b.take n) = .error (.truncated n)) ∧
    (∀ extra ≠ [], decode (b ++ extra) = .error (if 8 ∣ extra.length then .trailing extra.length
      else .truncated (b.length + extra.length))) ∧
    ∀ b' p', decode b' = .ok p' → b' <+: b ∨ b <+: b' → b' = b := by
  refine ⟨fun n => decode_take h, fun extra => decode_append h, ?_⟩
  rintro b' p' h' (hbegin | hbegin)
  · exact eq_of_decode_of_begins h' h hbegin
  · exact (eq_of_decode_of_begins h h' hbegin).symm

/-- A slice of one element with a centroid and a sender: two lists, a flag and three axes. -/
def sliceBytes : List UInt8 :=
  encode 3 (.contribution (.elements ⟨40, [1, 2, 3, 4], some ⟨[.one], [.one], [.one]⟩⟩))

/-- Cut off inside an axis, and with a word and with a byte behind it. -/
theorem slice_is_framed :
    sliceBytes.length = 112 ∧
    decode sliceBytes = .ok (3, .contribution
      (.elements ⟨40, [1, 2, 3, 4], some ⟨[.one], [.one], [.one]⟩⟩)) ∧
    decode (sliceBytes.take 96) = .error (.truncated 96) ∧
    decode (sliceBytes ++ [0, 0, 0, 0, 0, 0, 0, 0]) = .error (.trailing 8) ∧
    decode (sliceBytes ++ [7]) = .error (.truncated 113) := by
  have h : decode sliceBytes = .ok (3, .contribution
      (.elements ⟨40, [1, 2, 3, 4], some ⟨[.one], [.one], [.one]⟩⟩)) := by rfl
  have hlen : sliceBytes.length = 112 := by decide
  obtain ⟨hcut, hmore, -⟩ := messages_are_framed h
  refine ⟨hlen, h, hcut 96 (by omega), ?_, ?_⟩
  · exact hmore [0, 0, 0, 0, 0, 0, 0, 0] (by decide)
  · exact hmore [7] (by decide)

end MeshDecomp.Wire
