import Mathlib.Tactic.Ring
import Mathlib.Data.List.Induction
import Mathlib.Algebra.Order.Ring.Nat

/- Big-endian byte strings as natural numbers. -/
namespace BigEndian

abbrev Bytes := List UInt8

def ofBytes (b : Bytes) : Nat := b.foldl (fun acc x => acc * 256 + x.toNat) 0

/-- The low `len` bytes of a number, most significant first. -/
def toBytes : Nat → Nat → Bytes
  | 0, _ => []
  | len + 1, n => toBytes len (n / 256) ++ [UInt8.ofNat n]

def bitLength (n : Nat) : Nat := if n = 0 then 0 else n.log2 + 1

def byteLength (n : Nat) : Nat := (bitLength n + 7) / 8

/-- The shortest byte string of a number; none for zero. -/
def minimal (n : Nat) : Bytes := toBytes (byteLength n) n

@[simp] theorem ofBytes_nil : ofBytes [] = 0 := rfl

@[simp] theorem ofBytes_snoc (b : Bytes) (x : UInt8) :
    ofBytes (b ++ [x]) = ofBytes b * 256 + x.toNat := by
  simp [ofBytes]

@[simp] theorem toBytes_length (len n : Nat) : (toBytes len n).length = len := by
  induction len generalizing n with
  | zero => rfl
  | succ len ih => simp [toBytes, ih]

theorem ofBytes_append (a b : Bytes) :
    ofBytes (a ++ b) = ofBytes a * 256 ^ b.length + ofBytes b := by
  induction b using List.reverseRecOn with
  | nil => simp
  | append_singleton b x ih =>
    rw [← List.append_assoc, ofBytes_snoc, ih, ofBytes_snoc, List.length_append]
    simp only [List.length_singleton, pow_succ]
    ring

theorem ofBytes_cons (x : UInt8) (b : Bytes) :
    ofBytes (x :: b) = x.toNat * 256 ^ b.length + ofBytes b := by
  have h := ofBytes_append [x] b
  simpa [ofBytes] using h

theorem ofBytes_lt (b : Bytes) : ofBytes b < 256 ^ b.length := by
  induction b using List.reverseRecOn with
  | nil => simp
  | append_singleton b x ih =>
    have digit := x.toNat_lt
    simp only [ofBytes_snoc, List.length_append, List.length_singleton, pow_succ]
    omega

theorem ofBytes_byte {b : Bytes} {i : Nat} {x : UInt8} (here : b[i]? = some x) :
    ofBytes b >>> (8 * (b.length - 1 - i)) % 256 = x.toNat := by
  induction b using List.reverseRecOn with
  | nil => simp at here
  | append_singleton b y ih =>
    have digit := y.toNat_lt
    rw [ofBytes_snoc, List.length_append, List.length_singleton, Nat.add_sub_cancel]
    rcases Nat.lt_trichotomy i b.length with before | rfl | after
    · rw [List.getElem?_append_left before] at here
      have shift : 8 * (b.length - i) = 8 + 8 * (b.length - 1 - i) := by omega
      have above : (ofBytes b * 256 + y.toNat) >>> 8 = ofBytes b := by
        rw [Nat.shiftRight_eq_div_pow]
        omega
      rw [shift, Nat.shiftRight_add, above, ih here]
    · rw [List.getElem?_concat_length, Option.some.injEq] at here
      subst here
      rw [Nat.sub_self, Nat.mul_zero, Nat.shiftRight_zero]
      omega
    · rw [List.getElem?_eq_none (by simp; omega)] at here
      cases here

theorem ofBytes_toBytes (len n : Nat) : ofBytes (toBytes len n) = n % 256 ^ len := by
  induction len generalizing n with
  | zero => simp [toBytes, Nat.mod_one]
  | succ len ih =>
    rw [toBytes, ofBytes_snoc, ih, pow_succ, Nat.mul_comm (256 ^ len), Nat.mod_mul]
    have low : (UInt8.ofNat n).toNat = n % 256 := by simp
    omega

theorem ofBytes_toBytes_of_lt {len n : Nat} (small : n < 256 ^ len) :
    ofBytes (toBytes len n) = n := by
  rw [ofBytes_toBytes, Nat.mod_eq_of_lt small]

theorem toBytes_ofBytes (b : Bytes) : toBytes b.length (ofBytes b) = b := by
  induction b using List.reverseRecOn with
  | nil => rfl
  | append_singleton b x ih =>
    have digit := x.toNat_lt
    rw [List.length_append, List.length_singleton, toBytes, ofBytes_snoc]
    have high : (ofBytes b * 256 + x.toNat) / 256 = ofBytes b := by omega
    have low : UInt8.ofNat (ofBytes b * 256 + x.toNat) = x := by
      apply UInt8.toNat_inj.mp
      simp only [UInt8.toNat_ofNat']
      omega
    rw [high, low, ih]

theorem ofBytes_injective {a b : Bytes} (lengths : a.length = b.length)
    (same : ofBytes a = ofBytes b) : a = b := by
  rw [← toBytes_ofBytes a, ← toBytes_ofBytes b, lengths, same]

theorem toBytes_injective {len a b : Nat} (ha : a < 256 ^ len) (hb : b < 256 ^ len)
    (same : toBytes len a = toBytes len b) : a = b := by
  rw [← ofBytes_toBytes_of_lt ha, ← ofBytes_toBytes_of_lt hb, same]

theorem bitLength_bound (n : Nat) : n < 2 ^ bitLength n := by
  unfold bitLength
  split
  · omega
  · rename_i nonzero
    exact (Nat.log2_lt nonzero).mp (Nat.lt_succ_self _)

theorem bitLength_le {n bits : Nat} (small : n < 2 ^ bits) : bitLength n ≤ bits := by
  unfold bitLength
  split
  · exact Nat.zero_le _
  · rename_i nonzero
    exact (Nat.log2_lt nonzero).mpr small

theorem byteLength_bound (n : Nat) : n < 256 ^ byteLength n := by
  have bits := bitLength_bound n
  have wide : bitLength n ≤ 8 * byteLength n := by unfold byteLength; omega
  calc n < 2 ^ bitLength n := bits
    _ ≤ 2 ^ (8 * byteLength n) := Nat.pow_le_pow_right (by omega) wide
    _ = 256 ^ byteLength n := by rw [pow_mul]; norm_num

theorem byteLength_le {n len : Nat} (small : n < 256 ^ len) : byteLength n ≤ len := by
  have bits : bitLength n ≤ 8 * len := bitLength_le (by rw [pow_mul]; simpa using small)
  unfold byteLength
  omega

theorem byteLength_pos {n : Nat} (positive : 0 < n) : 0 < byteLength n := by
  have h : n ≠ 0 := by omega
  simp only [byteLength, bitLength, h, ↓reduceIte]
  omega

theorem ofBytes_minimal (n : Nat) : ofBytes (minimal n) = n :=
  ofBytes_toBytes_of_lt (byteLength_bound n)

@[simp] theorem minimal_length (n : Nat) : (minimal n).length = byteLength n :=
  toBytes_length _ _

theorem minimal_ofBytes (x : UInt8) (b : Bytes) (leading : x ≠ 0) :
    minimal (ofBytes (x :: b)) = x :: b := by
  have digit : 1 ≤ x.toNat := by
    rcases Nat.eq_zero_or_pos x.toNat with zero | positive
    · exact absurd (UInt8.toNat_inj.mp zero) leading
    · exact positive
  have lower : 256 ^ b.length ≤ ofBytes (x :: b) := by
    rw [ofBytes_cons]
    calc 256 ^ b.length = 1 * 256 ^ b.length := by ring
      _ ≤ x.toNat * 256 ^ b.length := Nat.mul_le_mul_right _ digit
      _ ≤ _ := Nat.le_add_right _ _
  have upper := byteLength_le (ofBytes_lt (x :: b))
  have exact : byteLength (ofBytes (x :: b)) = (x :: b).length := by
    apply Nat.le_antisymm upper
    by_contra short
    have reach : byteLength (ofBytes (x :: b)) ≤ b.length := by
      simp only [List.length_cons] at short; omega
    have below := byteLength_bound (ofBytes (x :: b))
    have cap := Nat.pow_le_pow_right (by omega : 256 > 0) reach
    omega
  rw [minimal, exact, toBytes_ofBytes]

theorem minimal_leading {n : Nat} (positive : 0 < n) :
    ∃ x b, minimal n = x :: b ∧ x ≠ 0 := by
  cases split : minimal n with
  | nil =>
    have none := minimal_length n
    have some := byteLength_pos positive
    rw [split] at none
    simp only [List.length_nil] at none
    omega
  | cons x b =>
    refine ⟨x, b, rfl, ?_⟩
    intro zero
    have value := ofBytes_minimal n
    rw [split, zero, ofBytes_cons] at value
    simp only [UInt8.toNat_zero, Nat.zero_mul, Nat.zero_add] at value
    have shorter := byteLength_le (value ▸ ofBytes_lt b)
    have len := minimal_length n
    rw [split, List.length_cons] at len
    omega

end BigEndian
