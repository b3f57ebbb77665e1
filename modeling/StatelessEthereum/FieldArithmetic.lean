import StatelessEthereum.LowDegree

/- The compiled functions of the Goldilocks field (zkSTARK/field.py). A word wraps
   modulo 2^64; `int` of a word is exact, and `np.uint64` raises outside 64 bits. -/
namespace FieldArithmetic
open PythonError FiatShamir

def FIELD_PRIME : UInt64 := 0xFFFFFFFF00000001

def EPSILON : UInt64 := 0xFFFFFFFF

def fieldAdd (a b : UInt64) : UInt64 :=
  let c := a + b
  if c ≥ FIELD_PRIME then c - FIELD_PRIME else c

def fieldSub (a b : UInt64) : UInt64 := if a ≥ b then a - b else a + FIELD_PRIME - b

/-- `np.uint64` of a number that is not negative. -/
def toUInt64 (n : Nat) : Except PyError UInt64 :=
  if n < 18446744073709551616 then .ok (UInt64.ofNat n) else .error (.overflowError "")

/-- The fold of a product: its high word counts 2^64 = 2^32 - 1. -/
def folded (product : Nat) : Nat :=
  let hi := product >>> 64
  let lo := product &&& 0xFFFFFFFFFFFFFFFF
  lo + hi * EPSILON.toNat

def fieldMul (a b : UInt64) : Except PyError UInt64 :=
  let reduced := folded (a.toNat * b.toNat)
  toUInt64 (if reduced ≥ FIELD_PRIME_INT then reduced - FIELD_PRIME_INT else reduced)

/-- A word that stands for an element of the field. -/
def Canonical (a : UInt64) : Prop := a.toNat < FIELD_PRIME_INT

instance (a : UInt64) : Decidable (Canonical a) := inferInstanceAs (Decidable (_ < _))

theorem canonical_lt {a : UInt64} (canonical : Canonical a) : a.toNat < 18446744069414584321 :=
  canonical

/- Addition and subtraction. -/

theorem fieldSub_toNat {a b : UInt64} (ha : Canonical a) (hb : Canonical b) :
    ((fieldSub a b).toNat : Int) = ((a.toNat : Int) - b.toNat) % FIELD_PRIME_INT := by
  have smallA := canonical_lt ha
  have smallB := canonical_lt hb
  have prime : FIELD_PRIME.toNat = 18446744069414584321 := rfl
  unfold fieldSub FIELD_PRIME_INT
  split
  · rename_i above
    rw [ge_iff_le, UInt64.le_iff_toNat_le] at above
    rw [UInt64.toNat_sub_of_le _ _ (UInt64.le_iff_toNat_le.mpr above)]
    omega
  · rename_i below
    rw [ge_iff_le, UInt64.le_iff_toNat_le] at below
    rw [UInt64.toNat_sub, UInt64.toNat_add, prime]
    omega

theorem fieldSub_canonical {a b : UInt64} (ha : Canonical a) (hb : Canonical b) :
    Canonical (fieldSub a b) := by
  have exact := fieldSub_toNat ha hb
  have below := Int.emod_lt_of_pos ((a.toNat : Int) - b.toNat)
    (show (0 : Int) < FIELD_PRIME_INT by decide)
  rw [← exact] at below
  exact_mod_cast below

/-- What addition gives, with and without a carry out of the word. -/
theorem fieldAdd_toNat {a b : UInt64} (ha : Canonical a) (hb : Canonical b) :
    (fieldAdd a b).toNat =
      if a.toNat + b.toNat < 18446744073709551616 then (a.toNat + b.toNat) % FIELD_PRIME_INT
      else a.toNat + b.toNat - 18446744073709551616 := by
  have smallA := canonical_lt ha
  have smallB := canonical_lt hb
  have prime : FIELD_PRIME.toNat = 18446744069414584321 := rfl
  have sum : (a + b).toNat = (a.toNat + b.toNat) % 18446744073709551616 := UInt64.toNat_add a b
  unfold fieldAdd FIELD_PRIME_INT
  simp only [ge_iff_le, UInt64.le_iff_toNat_le, prime]
  split
  · rename_i above
    rw [UInt64.toNat_sub_of_le _ _ (UInt64.le_iff_toNat_le.mpr (by rw [prime]; exact above)), prime]
    split <;> omega
  · split <;> omega

theorem fieldAdd_canonical {a b : UInt64} (ha : Canonical a) (hb : Canonical b) :
    Canonical (fieldAdd a b) := by
  have smallA := canonical_lt ha
  have smallB := canonical_lt hb
  rw [Canonical, fieldAdd_toNat ha hb]
  unfold FIELD_PRIME_INT
  split <;> omega

structure AdditionExact (a b : UInt64) : Prop where
  sum : (fieldAdd a b).toNat = (a.toNat + b.toNat) % FIELD_PRIME_INT
  difference : ((fieldSub a b).toNat : Int) = ((a.toNat : Int) - b.toNat) % FIELD_PRIME_INT
  sum_canonical : Canonical (fieldAdd a b)
  difference_canonical : Canonical (fieldSub a b)
  back : fieldSub (fieldAdd a b) b = a

/-- They are, exactly if the sum stays in the word. -/
theorem addition_exact_iff {a b : UInt64} (ha : Canonical a) (hb : Canonical b) :
    AdditionExact a b ↔ a.toNat + b.toNat < 18446744073709551616 := by
  have smallA := canonical_lt ha
  have smallB := canonical_lt hb
  have value := fieldAdd_toNat ha hb
  constructor
  · intro exact
    by_contra carried
    have sum := exact.sum
    rw [value, if_neg carried] at sum
    unfold FIELD_PRIME_INT at sum
    omega
  · intro fits
    rw [if_pos fits] at value
    refine ⟨value, fieldSub_toNat ha hb, fieldAdd_canonical ha hb, fieldSub_canonical ha hb, ?_⟩
    have back := fieldSub_toNat (fieldAdd_canonical ha hb) hb
    rw [value] at back
    apply UInt64.toNat_inj.mp
    unfold FIELD_PRIME_INT at back
    omega

theorem addition_exact_sample : AdditionExact 18446744069414584320 4294967295 :=
  (addition_exact_iff (by decide) (by decide)).mpr (by decide)

/-- Twice the last element: the carry out of the word is lost. -/
theorem sum_carried : Canonical 18446744069414584320 ∧
    fieldAdd 18446744069414584320 18446744069414584320 = 18446744065119617024 ∧
    (18446744069414584320 + 18446744069414584320) % FIELD_PRIME_INT = 18446744069414584319 ∧
    ¬ AdditionExact 18446744069414584320 18446744069414584320 := by
  refine ⟨by decide, by decide, by decide, fun exact => ?_⟩
  have sum := exact.sum
  revert sum
  decide

/- Multiplication. -/

theorem folded_eq (product : Nat) : folded product =
    product % 18446744073709551616 + product / 18446744073709551616 * 4294967295 := by
  have mask : product &&& 0xFFFFFFFFFFFFFFFF = product % 18446744073709551616 :=
    Nat.and_two_pow_sub_one_eq_mod product 64
  have shift : product >>> 64 = product / 18446744073709551616 :=
    Nat.shiftRight_eq_div_pow product 64
  rw [folded, mask, shift]
  rfl

/-- The fold takes off the prime once for each time the high word counts. -/
theorem product_folded (product : Nat) :
    product = folded product + product / 18446744073709551616 * FIELD_PRIME_INT := by
  have parts := Nat.div_add_mod' product 18446744073709551616
  rw [folded_eq]
  unfold FIELD_PRIME_INT
  omega

theorem folded_mod (product : Nat) : folded product % FIELD_PRIME_INT = product % FIELD_PRIME_INT := by
  conv => rhs; rw [product_folded product]
  rw [Nat.add_mul_mod_self_right]

theorem folded_small_iff (product : Nat) : folded product < 2 * FIELD_PRIME_INT ↔
    product / FIELD_PRIME_INT ≤ product / 18446744073709551616 + 1 := by
  have quotient : product / FIELD_PRIME_INT =
      folded product / FIELD_PRIME_INT + product / 18446744073709551616 := by
    conv => lhs; rw [product_folded product]
    rw [Nat.add_mul_div_right _ _ (by decide)]
  rw [quotient, Nat.add_comm _ 1, Nat.add_le_add_iff_right, ← Nat.lt_succ_iff,
    Nat.div_lt_iff_lt_mul (by decide)]

/-- Whether one conditional subtraction ends at the residue. -/
theorem subtracted_iff (n : Nat) :
    (if n ≥ FIELD_PRIME_INT then n - FIELD_PRIME_INT else n) = n % FIELD_PRIME_INT ↔
      n < 2 * FIELD_PRIME_INT := by
  have low := Nat.mod_lt n (show 0 < FIELD_PRIME_INT by decide)
  constructor
  · intro residue
    rw [← residue] at low
    split at low <;> omega
  · intro small
    split
    · rw [Nat.mod_eq_sub_mod (by omega), Nat.mod_eq_of_lt (by omega)]
    · rw [Nat.mod_eq_of_lt (by omega)]

theorem toUInt64_toNat {n : Nat} {c : UInt64} (run : toUInt64 n = .ok c) : c.toNat = n := by
  unfold toUInt64 at run
  split at run
  · rename_i fits
    cases run
    exact UInt64.toNat_ofNat_of_lt' fits
  · cases run

theorem toUInt64_ok {n : Nat} (fits : n < 18446744073709551616) :
    toUInt64 n = .ok (UInt64.ofNat n) := by
  rw [toUInt64, if_pos fits]

/-- A product comes out as its residue. -/
def MultiplicationExact (a b : UInt64) : Prop :=
  ∃ c, fieldMul a b = .ok c ∧ c.toNat = a.toNat * b.toNat % FIELD_PRIME_INT ∧ Canonical c

/-- It does exactly if the fold is below twice the prime. -/
theorem multiplication_folds (a b : UInt64) :
    MultiplicationExact a b ↔ folded (a.toNat * b.toNat) < 2 * FIELD_PRIME_INT := by
  have residue := Nat.mod_lt (a.toNat * b.toNat) (show 0 < FIELD_PRIME_INT by decide)
  have word : FIELD_PRIME_INT < 18446744073709551616 := by decide
  rw [← subtracted_iff, folded_mod]
  constructor
  · rintro ⟨c, run, value, _⟩
    exact (toUInt64_toNat run).symm.trans value
  · intro reduced
    have run : fieldMul a b = .ok (UInt64.ofNat (a.toNat * b.toNat % FIELD_PRIME_INT)) := by
      rw [← toUInt64_ok (Nat.lt_trans residue word), ← reduced]
      rfl
    have value := toUInt64_toNat (toUInt64_ok (Nat.lt_trans residue word))
    exact ⟨_, run, value, by rw [Canonical, value]; exact residue⟩

/-- That is, where dividing by 2^64 in place of the prime loses one at most. -/
theorem multiplication_exact_iff (a b : UInt64) : MultiplicationExact a b ↔
    a.toNat * b.toNat / FIELD_PRIME_INT ≤ a.toNat * b.toNat / 18446744073709551616 + 1 := by
  rw [multiplication_folds, folded_small_iff]

/-- The square of minus one is one; the code raises. -/
theorem square_raises : Canonical 18446744069414584320 ∧
    fieldMul 18446744069414584320 18446744069414584320 = .error (.overflowError "") ∧
    18446744069414584320 * 18446744069414584320 % FIELD_PRIME_INT = 1 ∧
    ¬ MultiplicationExact 18446744069414584320 18446744069414584320 := by
  have raised : fieldMul 18446744069414584320 18446744069414584320 =
      .error (.overflowError "") := by decide
  refine ⟨by decide, raised, by decide, ?_⟩
  rintro ⟨c, run, _⟩
  rw [raised] at run
  cases run

end FieldArithmetic
