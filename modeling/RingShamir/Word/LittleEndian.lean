/-!
# Little-endian words

A word is written as eight bytes, the least significant first.

Main results:

- Theorems `value_digits` and `digits_value`: the bytes of a number and the
  number of bytes determine each other.
- Theorems `decodeAll_encodeAll` and `encodeAll_decodeAll`: lists of words and
  lists of bytes in multiples of eight determine each other.
-/

namespace RingShamir.LittleEndian

/-! ## Numbers -/

/-- The `n` least significant bytes of a number. -/
def digits : Nat → Nat → List UInt8
  | 0, _ => []
  | n + 1, v => UInt8.ofNat v :: digits n (v / 256)

/-- The number that is written as bytes. -/
def value : List UInt8 → Nat
  | [] => 0
  | b :: bs => b.toNat + 256 * value bs

/-- The number of values that `n` bytes can have. -/
def capacity : Nat → Nat
  | 0 => 1
  | n + 1 => 256 * capacity n

@[simp] theorem capacity_eight : capacity 8 = UInt64.size := rfl

@[simp] theorem length_digits (n v : Nat) : (digits n v).length = n := by
  induction n generalizing v with
  | zero => rfl
  | succ n ih => simp [digits, ih]

theorem value_digits (n v : Nat) : value (digits n v) = v % capacity n := by
  induction n generalizing v with
  | zero => simp [digits, value, capacity, Nat.mod_one]
  | succ n ih =>
      have hsplit : v % capacity (n + 1) = v % 256 + 256 * (v / 256 % capacity n) := by
        rw [capacity, Nat.mod_mul]
      rw [digits, value, ih, UInt8.toNat_ofNat', hsplit]

theorem digits_value (bs : List UInt8) : digits bs.length (value bs) = bs := by
  induction bs with
  | nil => rfl
  | cons b bs ih =>
      have hb := b.toNat_lt
      have hhead : UInt8.ofNat (b.toNat + 256 * value bs) = b := by
        apply UInt8.toNat_inj.mp
        rw [UInt8.toNat_ofNat']
        omega
      have htail : (b.toNat + 256 * value bs) / 256 = value bs := by omega
      rw [List.length_cons, digits, value, hhead, htail, ih]

theorem value_lt (bs : List UInt8) : value bs < capacity bs.length := by
  induction bs with
  | nil => simp [value, capacity]
  | cons b bs ih =>
      have hb := b.toNat_lt
      rw [value, List.length_cons, capacity]
      omega

/-! ## Words -/

/-- The eight bytes of a word. -/
def encode (w : UInt64) : List UInt8 :=
  digits 8 w.toNat

/-- The word that is written as bytes. -/
def decode (bs : List UInt8) : UInt64 :=
  UInt64.ofNat (value bs)

@[simp] theorem length_encode (w : UInt64) : (encode w).length = 8 :=
  length_digits 8 _

@[simp] theorem decode_encode (w : UInt64) : decode (encode w) = w := by
  have hw : w.toNat % UInt64.size = w.toNat := Nat.mod_eq_of_lt w.toNat_lt
  have hlt := w.toNat_lt
  apply UInt64.toNat_inj.mp
  rw [decode, encode, value_digits, capacity_eight, hw, UInt64.toNat_ofNat']
  omega

theorem encode_decode {bs : List UInt8} (h : bs.length = 8) : encode (decode bs) = bs := by
  have hv := value_lt bs
  rw [h, capacity_eight] at hv
  rw [encode, decode, UInt64.toNat_ofNat', Nat.mod_eq_of_lt (by omega), ← h, digits_value]

/-! ## Lists of words -/

/-- The bytes of a list of words, one word after the other. -/
def encodeAll (ws : List UInt64) : List UInt8 :=
  ws.flatMap encode

/-- The words of a list of bytes; up to seven bytes at the end are left out. -/
def decodeAll : List UInt8 → List UInt64
  | a :: b :: c :: d :: e :: f :: g :: h :: rest =>
      decode [a, b, c, d, e, f, g, h] :: decodeAll rest
  | _ => []

@[simp] theorem encodeAll_nil : encodeAll [] = [] := rfl

@[simp] theorem encodeAll_cons (w : UInt64) (ws : List UInt64) :
    encodeAll (w :: ws) = encode w ++ encodeAll ws := rfl

@[simp] theorem encodeAll_append (ws ws' : List UInt64) :
    encodeAll (ws ++ ws') = encodeAll ws ++ encodeAll ws' := by
  simp [encodeAll]

@[simp] theorem length_encodeAll (ws : List UInt64) :
    (encodeAll ws).length = 8 * ws.length := by
  induction ws with
  | nil => rfl
  | cons w ws ih =>
      rw [encodeAll_cons, List.length_append, length_encode, ih, List.length_cons]
      omega

theorem decodeAll_append {bs : List UInt8} (h : bs.length = 8) (rest : List UInt8) :
    decodeAll (bs ++ rest) = decode bs :: decodeAll rest := by
  match bs, h with
  | [_, _, _, _, _, _, _, _], _ => rfl

@[simp] theorem decodeAll_encodeAll (ws : List UInt64) : decodeAll (encodeAll ws) = ws := by
  induction ws with
  | nil => rfl
  | cons w ws ih =>
      rw [encodeAll_cons, decodeAll_append (length_encode w), decode_encode, ih]

theorem encodeAll_decodeAll {n : Nat} {bs : List UInt8} (h : bs.length = 8 * n) :
    encodeAll (decodeAll bs) = bs := by
  induction n generalizing bs with
  | zero =>
      have : bs = [] := List.length_eq_zero_iff.mp (by omega)
      rw [this]
      rfl
  | succ n ih =>
      have hhead : (bs.take 8).length = 8 := by rw [List.length_take]; omega
      have htail : (bs.drop 8).length = 8 * n := by rw [List.length_drop]; omega
      rw [← List.take_append_drop 8 bs, decodeAll_append hhead, encodeAll_cons,
        encode_decode hhead, ih htail]

end RingShamir.LittleEndian
