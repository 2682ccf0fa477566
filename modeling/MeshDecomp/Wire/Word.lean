/-! Little-endian words of eight bytes. -/

namespace MeshDecomp.Wire

/-- The lowest `width` bytes of a number, the lowest one first. -/
def littleEndian : (width n : Nat) → List UInt8
  | 0, _ => []
  | k + 1, n => UInt8.ofNat n :: littleEndian k (n / 256)

def ofLittleEndian : List UInt8 → Nat
  | [] => 0
  | b :: r => b.toNat + 256 * ofLittleEndian r

@[simp] theorem length_littleEndian (width n : Nat) : (littleEndian width n).length = width := by
  induction width generalizing n with
  | zero => rfl
  | succ k ih => simp [littleEndian, ih]

theorem ofLittleEndian_littleEndian (width n : Nat) :
    ofLittleEndian (littleEndian width n) = n % Nat.pow 256 width := by
  induction width generalizing n with
  | zero => simp [littleEndian, ofLittleEndian, Nat.mod_one]
  | succ k ih =>
    have low : (UInt8.ofNat n).toNat = n % 256 := UInt8.toNat_ofNat'
    have succ : Nat.pow 256 (k + 1) = 256 * Nat.pow 256 k := Nat.pow_succ'
    rw [littleEndian, ofLittleEndian, ih, low, succ, Nat.mod_mul]

theorem ofLittleEndian_lt (bs : List UInt8) : ofLittleEndian bs < Nat.pow 256 bs.length := by
  induction bs with
  | nil => simp [ofLittleEndian]
  | cons b r ih =>
    have := b.toNat_lt
    have succ : Nat.pow 256 (r.length + 1) = 256 * Nat.pow 256 r.length := Nat.pow_succ'
    simp only [ofLittleEndian, List.length_cons, succ]
    omega

theorem littleEndian_zero (width : Nat) : littleEndian width 0 = List.replicate width 0 := by
  induction width with
  | zero => rfl
  | succ k ih =>
    rw [littleEndian, Nat.zero_div, ih]
    rfl

/-- A number in more bytes than it came from ends with zeros. -/
theorem littleEndian_ofLittleEndian_add (bs : List UInt8) (j : Nat) :
    littleEndian (bs.length + j) (ofLittleEndian bs) = bs ++ List.replicate j 0 := by
  induction bs with
  | nil =>
    rw [List.length_nil, Nat.zero_add, ofLittleEndian, List.nil_append, littleEndian_zero]
  | cons b r ih =>
    have hb := b.toNat_lt
    have hdiv : (b.toNat + 256 * ofLittleEndian r) / 256 = ofLittleEndian r := by omega
    have hlow : UInt8.ofNat (b.toNat + 256 * ofLittleEndian r) = b := by
      apply UInt8.toNat_inj.1
      rw [UInt8.toNat_ofNat']
      omega
    rw [List.length_cons, Nat.add_right_comm, littleEndian, ofLittleEndian, hdiv, ih, hlow,
      List.cons_append]

theorem littleEndian_ofLittleEndian (bs : List UInt8) :
    littleEndian bs.length (ofLittleEndian bs) = bs := by
  have h := littleEndian_ofLittleEndian_add bs 0
  rwa [List.replicate_zero, List.append_nil] at h

def bytesOfWords (ws : List Nat) : List UInt8 := ws.flatMap (littleEndian 8)

/-- The words of whole groups of eight bytes; bytes at the end that fill no word are left out. -/
def wordsOfBytes : List UInt8 → List Nat
  | a :: b :: c :: d :: e :: f :: g :: h :: r =>
      ofLittleEndian [a, b, c, d, e, f, g, h] :: wordsOfBytes r
  | _ => []

@[simp] theorem length_bytesOfWords (ws : List Nat) : (bytesOfWords ws).length = 8 * ws.length := by
  induction ws with
  | nil => rfl
  | cons w ws ih =>
    simp only [bytesOfWords, List.flatMap_cons, List.length_append, length_littleEndian] at *
    simp only [ih, List.length_cons]
    omega

/-- As many words as it takes to hold all bytes, filled up with zeros. -/
def pack : List UInt8 → List Nat
  | a :: b :: c :: d :: e :: f :: g :: h :: r => ofLittleEndian [a, b, c, d, e, f, g, h] :: pack r
  | [] => []
  | bs => [ofLittleEndian bs]

end MeshDecomp.Wire
