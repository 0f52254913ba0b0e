import Mathlib.Data.Nat.Basic
import Mathlib.Algebra.Order.Group.Nat

/-! # Base-128 varints

Seven bits a byte, the low ones first, with the high bit set on every byte but the last. Decoding
stops after the last byte of a code, gives back what was encoded, and runs out of bytes on every
proper prefix of a code. -/

namespace Lib.Varint

inductive Error
  /-- The bytes end inside a code. -/
  | index
  /-- More bytes than a 64-bit value has. -/
  | tooLong
deriving DecidableEq

def encodeLoop : Nat → Nat → List UInt8
  | 0, value => [UInt8.ofNat (value &&& 0x7f)]
  | fuel + 1, value =>
    if value >>> 7 = 0 then [UInt8.ofNat (value &&& 0x7f)]
    else UInt8.ofNat (0x80 ||| (value &&& 0x7f)) :: encodeLoop fuel (value >>> 7)

def encode (value : Nat) : List UInt8 := encodeLoop value value

/-- The value, modulo `2 ^ 64`, and the bytes behind its code. -/
def decodeFrom : List UInt8 → Nat → Nat → Except Error (Nat × List UInt8)
  | [], _, _ => .error .index
  | b :: bs, shift, result =>
    let result := result ||| (b.toNat &&& 0x7f) <<< shift
    if b.toNat &&& 0x80 = 0 then .ok (result &&& (2 ^ 64 - 1), bs)
    else if 64 ≤ shift + 7 then .error .tooLong
    else decodeFrom bs (shift + 7) result

def decode (data : List UInt8) : Except Error (Nat × List UInt8) := decodeFrom data 0 0

variable {n m x shift result : Nat} {bs p q rest : List UInt8}

/-! ## The two kinds of byte -/

theorem and_0x7f : n &&& 0x7f = n % 128 := Nat.and_two_pow_sub_one_eq_mod n 7

theorem shiftRight_7 : n >>> 7 = n / 128 := Nat.shiftRight_eq_div_pow n 7

theorem or_0x80 (h : x < 128) : 0x80 ||| x = x + 128 := by
  rw [Nat.add_comm]
  exact (Nat.two_pow_add_eq_or_of_lt (i := 7) h 1).symm

theorem and_0x80_last (h : x < 128) : x &&& 0x80 = 0 := by
  apply Nat.eq_of_testBit_eq
  intro i
  rw [Nat.testBit_and, Nat.zero_testBit, show (0x80 : Nat) = 2 ^ 7 from rfl, Nat.testBit_two_pow]
  rcases eq_or_ne 7 i with rfl | hi
  · rw [Nat.testBit_lt_two_pow h, Bool.false_and]
  · rw [decide_eq_false hi, Bool.and_false]

theorem and_0x80_more (h : x < 128) : x + 128 &&& 0x80 ≠ 0 := by
  intro hc
  have hbit : (2 ^ 7 + x).testBit 7 = true := by
    rw [Nat.testBit_two_pow_add_eq, Nat.testBit_lt_two_pow h, Bool.not_false]
  have hzero := congrArg (Nat.testBit · 7) hc
  simp only [Nat.add_comm x, Nat.testBit_and, Nat.zero_testBit] at hzero
  rw [show (128 : Nat) = 2 ^ 7 from rfl, hbit, Nat.testBit_two_pow_self] at hzero
  cases hzero

theorem or_shiftLeft (h : result < 2 ^ shift) :
    result ||| x <<< shift = result + x * 2 ^ shift := by
  rw [Nat.or_comm, ← Nat.shiftLeft_add_eq_or_of_lt h, Nat.shiftLeft_eq, Nat.add_comm]

theorem decodeFrom_last (h : x < 128) (hr : result < 2 ^ shift) :
    decodeFrom (UInt8.ofNat x :: bs) shift result =
      .ok ((result + x * 2 ^ shift) % 2 ^ 64, bs) := by
  have hx : (UInt8.ofNat x).toNat = x := UInt8.toNat_ofNat_of_lt' (Nat.lt_of_lt_of_le h (by decide))
  rw [decodeFrom, hx, if_pos (and_0x80_last h), and_0x7f, Nat.mod_eq_of_lt h, or_shiftLeft hr,
    Nat.and_two_pow_sub_one_eq_mod]

theorem decodeFrom_more (h : x < 128) (hr : result < 2 ^ shift) (hs : shift + 7 < 64) :
    decodeFrom (UInt8.ofNat (x + 128) :: bs) shift result =
      decodeFrom bs (shift + 7) (result + x * 2 ^ shift) := by
  have hx : (UInt8.ofNat (x + 128)).toNat = x + 128 :=
    UInt8.toNat_ofNat_of_lt' (Nat.add_lt_add_right h 128)
  rw [decodeFrom, hx, if_neg (and_0x80_more h), if_neg (by omega), and_0x7f, Nat.add_mod_right,
    Nat.mod_eq_of_lt h, or_shiftLeft hr]

/-! ## Codes -/

theorem encodeLoop_congr {i j : Nat} (hi : n ≤ i) (hj : n ≤ j) :
    encodeLoop i n = encodeLoop j n := by
  induction i generalizing n j with
  | zero =>
    obtain rfl : n = 0 := by omega
    cases j <;> rfl
  | succ i ih =>
    rw [encodeLoop]
    split
    · next hz =>
      cases j with
      | zero => rfl
      | succ j => rw [encodeLoop, if_pos hz]
    · next hz =>
      rw [shiftRight_7] at hz ⊢
      cases j with
      | zero => omega
      | succ j => rw [encodeLoop, shiftRight_7, if_neg hz, ih (j := j) (by omega) (by omega)]

theorem encode_of_lt (h : n < 128) : encode n = [UInt8.ofNat n] := by
  have hz : n >>> 7 = 0 := by rw [shiftRight_7]; omega
  have hn : n &&& 0x7f = n := by rw [and_0x7f, Nat.mod_eq_of_lt h]
  rw [encode]
  cases n with
  | zero => rfl
  | succ k => rw [encodeLoop, if_pos hz, hn]

theorem encode_of_le (h : 128 ≤ n) :
    encode n = UInt8.ofNat (n % 128 + 128) :: encode (n / 128) := by
  obtain ⟨k, rfl⟩ : ∃ k, n = k + 1 := ⟨n - 1, by omega⟩
  rw [encode, encodeLoop, shiftRight_7, if_neg (by omega), and_0x7f,
    or_0x80 (Nat.mod_lt _ (by decide)),
    encode, encodeLoop_congr (j := (k + 1) / 128) (by omega) (Nat.le_refl _)]

/-- The shift stays below 64 as long as what is left to decode does. -/
theorem shift_lt (h : 128 ≤ n) (hn : n * 2 ^ shift < 2 ^ 64) : shift + 7 < 64 := by
  refine (Nat.pow_lt_pow_iff_right (a := 2) (by decide)).mp ?_
  calc 2 ^ (shift + 7) = 128 * 2 ^ shift := by rw [Nat.pow_add, Nat.mul_comm]
    _ ≤ n * 2 ^ shift := Nat.mul_le_mul_right _ h
    _ < 2 ^ 64 := hn

theorem div_mul_pow (h : n * 2 ^ shift < 2 ^ 64) : n / 128 * 2 ^ (shift + 7) < 2 ^ 64 := by
  calc n / 128 * 2 ^ (shift + 7) = n / 128 * 128 * 2 ^ shift := by
        rw [Nat.pow_add, Nat.mul_comm (2 ^ shift), ← Nat.mul_assoc]
    _ ≤ n * 2 ^ shift := Nat.mul_le_mul_right _ (Nat.div_mul_le_self n 128)
    _ < 2 ^ 64 := h

theorem add_mul_pow_lt (h : x < 128) (hr : result < 2 ^ shift) :
    result + x * 2 ^ shift < 2 ^ (shift + 7) := by
  calc result + x * 2 ^ shift < 2 ^ shift + x * 2 ^ shift := Nat.add_lt_add_right hr _
    _ = (x + 1) * 2 ^ shift := by rw [Nat.add_mul, Nat.one_mul, Nat.add_comm]
    _ ≤ 128 * 2 ^ shift := Nat.mul_le_mul_right _ h
    _ = 2 ^ (shift + 7) := by rw [Nat.pow_add, Nat.mul_comm]

theorem decodeFrom_encode (hn : n * 2 ^ shift < 2 ^ 64) (hr : result < 2 ^ shift) :
    decodeFrom (encode n ++ rest) shift result = .ok ((result + n * 2 ^ shift) % 2 ^ 64, rest) := by
  induction n using Nat.strong_induction_on generalizing shift result with
  | _ n ih =>
    rcases Nat.lt_or_ge n 128 with h | h
    · rw [encode_of_lt h, List.singleton_append, decodeFrom_last h hr]
    · have hx : n % 128 < 128 := Nat.mod_lt _ (by decide)
      rw [encode_of_le h, List.cons_append, decodeFrom_more hx hr (shift_lt h hn),
        ih (n / 128) (by omega) (div_mul_pow hn) (add_mul_pow_lt hx hr)]
      have hsum : result + n % 128 * 2 ^ shift + n / 128 * 2 ^ (shift + 7) =
          result + n * 2 ^ shift := by
        calc result + n % 128 * 2 ^ shift + n / 128 * 2 ^ (shift + 7)
            = result + (n % 128 + n / 128 * 128) * 2 ^ shift := by
              rw [Nat.pow_add, Nat.mul_comm (2 ^ shift), ← Nat.mul_assoc, Nat.add_mul,
                Nat.add_assoc]
          _ = result + n * 2 ^ shift := by rw [Nat.mul_comm (n / 128), Nat.mod_add_div]
      rw [hsum]

/-- Decoding inverts encoding and leaves what follows the code. -/
theorem decode_encode (h : n < 2 ^ 64) : decode (encode n ++ rest) = .ok (n, rest) := by
  have hd : decodeFrom (encode n ++ rest) 0 0 = .ok ((0 + n * 2 ^ 0) % 2 ^ 64, rest) :=
    decodeFrom_encode (by simpa using h) (by decide)
  rw [decode, hd, Nat.pow_zero, Nat.mul_one, Nat.zero_add, Nat.mod_eq_of_lt h]

theorem decodeFrom_prefix (hn : n * 2 ^ shift < 2 ^ 64) (hr : result < 2 ^ shift)
    (hp : p ++ q = encode n) (hq : q ≠ []) : decodeFrom p shift result = .error .index := by
  induction n using Nat.strong_induction_on generalizing shift result p with
  | _ n ih =>
    cases p with
    | nil => rfl
    | cons b p =>
      rcases Nat.lt_or_ge n 128 with h | h
      · rw [encode_of_lt h] at hp
        exact absurd (List.append_eq_nil_iff.mp (List.cons.inj hp).2).2 hq
      · rw [encode_of_le h] at hp
        obtain ⟨hb, hp⟩ := List.cons.inj hp
        have hx : n % 128 < 128 := Nat.mod_lt _ (by decide)
        rw [hb, decodeFrom_more hx hr (shift_lt h hn)]
        exact ih (n / 128) (by omega) (div_mul_pow hn) (add_mul_pow_lt hx hr) hp

/-- A proper prefix of a code ends inside it. -/
theorem decode_prefix (h : n < 2 ^ 64) (hp : p ++ q = encode n) (hq : q ≠ []) :
    decode p = .error .index :=
  decodeFrom_prefix (by simpa using h) (by decide) hp hq

theorem encode_ne_nil : encode n ≠ [] := by
  rcases Nat.lt_or_ge n 128 with h | h
  · rw [encode_of_lt h]; exact List.cons_ne_nil _ _
  · rw [encode_of_le h]; exact List.cons_ne_nil _ _

/-! ## Unfinished codes -/

/-- Every byte announces another one, and the tenth, after which decoding gives up, is not there. -/
structure Unfinished (bs : List UInt8) : Prop where
  more : ∀ b ∈ bs, 128 ≤ b.toNat
  length_lt : bs.length < 10

theorem Unfinished.nil : Unfinished [] where
  more _ hb := nomatch hb
  length_lt := by decide

theorem Unfinished.of_append (h : Unfinished (p ++ q)) : Unfinished p where
  more b hb := h.more b (List.mem_append_left q hb)
  length_lt := by
    have hlen := h.length_lt
    rw [List.length_append] at hlen
    exact Nat.lt_of_le_of_lt (Nat.le_add_right ..) hlen

theorem and_0x80_eq_zero_iff {b : UInt8} : b.toNat &&& 0x80 = 0 ↔ b.toNat < 128 := by
  rcases Nat.lt_or_ge b.toNat 128 with h | h
  · exact iff_of_true (and_0x80_last h) h
  · obtain ⟨x, hx⟩ := Nat.exists_eq_add_of_le' h
    have hb := b.toNat_lt
    rw [hx]
    exact iff_of_false (and_0x80_more (by omega)) (by omega)

theorem decodeFrom_index_iff (hs : shift < 64) : decodeFrom bs shift result = .error .index ↔
    (∀ b ∈ bs, 128 ≤ b.toNat) ∧ shift + 7 * bs.length < 64 := by
  induction bs generalizing shift result with
  | nil => exact iff_of_true rfl ⟨List.forall_mem_nil _, hs⟩
  | cons b bs ih =>
    rw [decodeFrom, List.forall_mem_cons, List.length_cons]
    split
    · next h =>
      rw [and_0x80_eq_zero_iff] at h
      exact iff_of_false nofun fun hc => absurd hc.1.1 (Nat.not_le.mpr h)
    · next h =>
      rw [and_0x80_eq_zero_iff] at h
      split
      · next h7 => exact iff_of_false nofun fun hc => by omega
      · next h7 =>
        rw [ih (Nat.not_le.mp h7), Nat.mul_succ, and_iff_right (Nat.not_lt.mp h),
          Nat.add_right_comm, Nat.add_assoc]

/-- Decoding runs out of bytes on the unfinished codes and on no other bytes. -/
theorem decode_index_iff : decode bs = .error .index ↔ Unfinished bs := by
  rw [decode, decodeFrom_index_iff (by decide)]
  refine ⟨fun ⟨hm, hl⟩ => ⟨hm, by omega⟩, fun h => ⟨h.more, ?_⟩⟩
  have := h.length_lt
  omega

end Lib.Varint
