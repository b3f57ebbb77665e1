import StatelessEthereum.FieldArithmetic
import StatelessEthereum.NumberTransform

/- Powers, inverses and quotients in the Goldilocks field (zkSTARK/field.py), for any
   multiplication of words that they are given. -/
namespace FieldPowers
open PythonError FiatShamir LowDegree FieldArithmetic NumberTransform
variable (mul : UInt64 → UInt64 → Except PyError UInt64)

/-- The loop over the bits of the exponent, the lowest first. The base is squared once
    more after the last bit. -/
def powLoop (result base : UInt64) (exp : Nat) : Except PyError UInt64 :=
  if 0 < exp then do
    let result ← if exp &&& 1 ≠ 0 then mul result base else .ok result
    let base ← mul base base
    powLoop result base (exp >>> 1)
  else .ok result
termination_by exp
decreasing_by
  rw [Nat.shiftRight_one]
  exact Nat.div_lt_self ‹0 < exp› (by decide)

/-- Multiplicative inverse using Fermat's little theorem: a^(p-2) mod p -/
def fieldInv (a : UInt64) : Except PyError UInt64 :=
  if a = 0 then .error (.valueError "Cannot invert zero")
  else powLoop mul 1 a (FIELD_PRIME_INT - 2)

def fieldDiv (a b : UInt64) : Except PyError UInt64 := do
  let inverse ← fieldInv mul b
  mul a inverse

/-- Exponentiation in Goldilocks field. No turn is made for a negative exponent. -/
def fieldPow (base : UInt64) (exp : Int) : Except PyError UInt64 := powLoop mul 1 base exp.toNat

def Multiplies (a b : UInt64) : Prop :=
  ∃ c, mul a b = .ok c ∧ c.toNat = a.toNat * b.toNat % FIELD_PRIME_INT

def Exact : Prop := ∀ a b, Canonical a → Canonical b → Multiplies mul a b

def PowerOf (g : UInt64) (i : Nat) (a : UInt64) : Prop := a.toNat = g.toNat ^ i % FIELD_PRIME_INT

theorem powerOf_canonical {g a : UInt64} {i : Nat} (power : PowerOf g i a) : Canonical a := by
  rw [Canonical, power]
  exact Nat.mod_lt _ (by decide)

theorem powerOf_zero (g : UInt64) : PowerOf g 0 1 := by
  rw [PowerOf, pow_zero]
  decide

theorem powerOf_self {g : UInt64} (canonical : Canonical g) : PowerOf g 1 g := by
  rw [PowerOf, pow_one, Nat.mod_eq_of_lt canonical]

variable {mul}

theorem mul_power {g a b : UInt64} {i j : Nat} (multiplies : Multiplies mul a b)
    (left : PowerOf g i a) (right : PowerOf g j b) : ∃ c, mul a b = .ok c ∧ PowerOf g (i + j) c := by
  obtain ⟨c, run, product⟩ := multiplies
  refine ⟨c, run, ?_⟩
  rw [PowerOf, product, left, right, ← Nat.mul_mod, pow_add]

/-- The result times the base to the rest of the exponent stays the same power. -/
theorem powLoop_power {g : UInt64}
    (each : ∀ a b i j, PowerOf g i a → PowerOf g j b → Multiplies mul a b)
    (exp : Nat) {result base : UInt64} {i j : Nat} (reached : PowerOf g i result)
    (turned : PowerOf g j base) :
    ∃ c, powLoop mul result base exp = .ok c ∧ PowerOf g (i + j * exp) c := by
  induction exp using Nat.strongRecOn generalizing result base i j with
  | ind exp ih =>
    rw [powLoop]
    split
    · rename_i more
      have parts := Nat.div_add_mod exp 2
      have shorter : exp / 2 < exp := Nat.div_lt_self more (by decide)
      obtain ⟨square, squared, doubled⟩ := mul_power (each _ _ _ _ turned turned) turned turned
      simp only [Nat.and_one_is_mod, Nat.shiftRight_one, squared, bind, Except.bind]
      rcases Nat.mod_two_eq_zero_or_one exp with even | odd
      · obtain ⟨c, run, power⟩ := ih _ shorter reached doubled
        rw [even] at parts
        refine ⟨c, by simp only [even, ne_eq, not_true_eq_false, ↓reduceIte, run], ?_⟩
        rw [← parts]
        convert power using 1
        ring
      · obtain ⟨next, multiplied, grown⟩ := mul_power (each _ _ _ _ reached turned) reached turned
        obtain ⟨c, run, power⟩ := ih _ shorter grown doubled
        rw [odd] at parts
        refine ⟨c, by simp only [odd, ne_eq, one_ne_zero, not_false_eq_true, ↓reduceIte,
          multiplied, run], ?_⟩
        rw [← parts]
        convert power using 1
        ring
    · rename_i last
      have none : exp = 0 := by omega
      exact ⟨result, rfl, by rw [none, mul_zero, add_zero]; exact reached⟩

theorem powLoop_base {g : UInt64} (canonical : Canonical g)
    (each : ∀ a b i j, PowerOf g i a → PowerOf g j b → Multiplies mul a b) (exp : Nat) :
    ∃ c, powLoop mul 1 g exp = .ok c ∧ PowerOf g exp c := by
  obtain ⟨c, run, power⟩ := powLoop_power each exp (powerOf_zero g) (powerOf_self canonical)
  exact ⟨c, run, by rwa [Nat.zero_add, Nat.one_mul] at power⟩

theorem fieldPow_power {base : UInt64} (canonical : Canonical base)
    (each : ∀ a b i j, PowerOf base i a → PowerOf base j b → Multiplies mul a b) (e : Nat) :
    ∃ c, fieldPow mul base e = .ok c ∧ c.toNat = base.toNat ^ e % FIELD_PRIME_INT :=
  powLoop_base canonical each e

/-- The compiled multiplication is enough where it folds every product of two powers
    of the base below twice the prime. -/
theorem fieldPow_compiled {base : UInt64} (canonical : Canonical base)
    (folds : ∀ i j, folded ((base.toNat ^ i % FIELD_PRIME_INT) * (base.toNat ^ j % FIELD_PRIME_INT)) <
      2 * FIELD_PRIME_INT) (e : Nat) :
    ∃ c, fieldPow fieldMul base e = .ok c ∧ c.toNat = base.toNat ^ e % FIELD_PRIME_INT := by
  refine fieldPow_power canonical (fun a b i j left right => ?_) e
  have small := folds i j
  rw [← left, ← right, ← multiplication_folds] at small
  obtain ⟨c, run, product, _⟩ := small
  exact ⟨c, run, product⟩

section Prime
variable (exact : Exact mul)
include exact

theorem exact_powers (g : UInt64) :
    ∀ a b i j, PowerOf g i a → PowerOf g j b → Multiplies mul a b := fun a b _ _ left right =>
  exact a b (powerOf_canonical left) (powerOf_canonical right)

omit exact in
theorem fermat {a : UInt64} (canonical : Canonical a) (some : a ≠ 0) :
    a.toNat ^ (FIELD_PRIME_INT - 1) % FIELD_PRIME_INT = 1 := by
  have unit : (a.toNat : ZMod FIELD_PRIME_INT) ≠ 0 := by
    intro zero
    rw [ZMod.natCast_eq_zero_iff] at zero
    exact some (UInt64.toNat_inj.mp (Nat.eq_zero_of_dvd_of_lt zero canonical))
  have one : ((a.toNat ^ (FIELD_PRIME_INT - 1) : Nat) : ZMod FIELD_PRIME_INT) = (1 : Nat) := by
    rw [Nat.cast_pow, ZMod.pow_card_sub_one_eq_one unit, Nat.cast_one]
  exact (ZMod.natCast_eq_natCast_iff' _ _ _).mp one

theorem fieldInv_inverts {a : UInt64} (canonical : Canonical a) (some : a ≠ 0) :
    ∃ b, fieldInv mul a = .ok b ∧ Canonical b ∧ mul a b = .ok 1 := by
  obtain ⟨b, run, power⟩ := powLoop_base canonical (exact_powers exact a) (FIELD_PRIME_INT - 2)
  obtain ⟨c, product, whole⟩ :=
    mul_power (exact a b canonical (powerOf_canonical power)) (powerOf_self canonical) power
  have one : c = 1 := by
    have value : c.toNat = 1 := whole.trans (fermat canonical some)
    exact UInt64.toNat_inj.mp value
  refine ⟨b, by rw [fieldInv, if_neg some, run], powerOf_canonical power, ?_⟩
  rw [product, one]

/-- A quotient times the divisor is the dividend again. -/
theorem fieldDiv_mul {a b : UInt64} (dividend : Canonical a) (divisor : Canonical b) (some : b ≠ 0) :
    ∃ c, fieldDiv mul a b = .ok c ∧ mul c b = .ok a := by
  obtain ⟨inverse, run, reduced, one⟩ := fieldInv_inverts exact divisor some
  obtain ⟨c, quotient, value⟩ := exact a inverse dividend reduced
  have canonical : Canonical c := by
    rw [Canonical, value]
    exact Nat.mod_lt _ (by decide)
  obtain ⟨d, back, product⟩ := exact c b canonical divisor
  obtain ⟨unit, same, unity⟩ := exact b inverse divisor reduced
  rw [one, Except.ok.injEq] at same
  rw [← same, show (1 : UInt64).toNat = 1 by decide] at unity
  have whole : d = a := by
    apply UInt64.toNat_inj.mp
    rw [product, value, Nat.mod_mul_mod, mul_assoc, mul_comm inverse.toNat, Nat.mul_mod, ← unity,
      mul_one, Nat.mod_mod, Nat.mod_eq_of_lt dividend]
  exact ⟨c, by simp only [fieldDiv, run, bind, Except.bind, quotient], by rw [back, whole]⟩

/-- The loop computes the inverse that the transforms are stated with. -/
theorem fieldInv_goldilocks {a : UInt64} (canonical : Canonical a) :
    fieldInv mul a = goldilocks.inv a := by
  change _ = if a = 0 then _ else _
  rw [fieldInv]
  split
  · rfl
  · obtain ⟨b, run, power⟩ := powLoop_base canonical (exact_powers exact a) (FIELD_PRIME_INT - 2)
    have same : b = UInt64.ofNat (PolyUtils.powMod a.toNat (FIELD_PRIME_INT - 2) FIELD_PRIME_INT) := by
      apply UInt64.toNat_inj.mp
      rw [PolyUtils.powMod_eq, reduced_toNat]
      exact power
    rw [run, same]

/-- Powers and inverses are those of the field. -/
theorem powers_inverses :
    (∀ base, Canonical base → ∀ e : Nat,
      ∃ c, fieldPow mul base e = .ok c ∧ c.toNat = base.toNat ^ e % FIELD_PRIME_INT) ∧
    (∀ a, Canonical a → a ≠ 0 → ∃ b, fieldInv mul a = .ok b ∧ Canonical b ∧ mul a b = .ok 1) ∧
    fieldInv mul 0 = .error (.valueError "Cannot invert zero") := by
  refine ⟨fun base canonical e => ?_, fun a canonical some => ?_, rfl⟩
  · exact fieldPow_power canonical (exact_powers exact base) e
  · exact fieldInv_inverts exact canonical some

end Prime

theorem goldilocks_exact : Exact fun a b => .ok (goldilocks.mul a b) := fun _ _ _ _ =>
  ⟨_, rfl, reduced_toNat _⟩

theorem powers_inverses_sample :
    (∃ c, fieldPow (fun a b => .ok (goldilocks.mul a b)) 18446744069414584320 5 = .ok c ∧
      c.toNat = 18446744069414584320 ^ 5 % FIELD_PRIME_INT) ∧
    ∃ b, fieldInv (fun a b => .ok (goldilocks.mul a b)) 7 = .ok b ∧ Canonical b ∧
      Except.ok (goldilocks.mul 7 b) = (.ok 1 : Except PyError UInt64) := by
  obtain ⟨powers, inverses, _⟩ := powers_inverses goldilocks_exact
  exact ⟨powers 18446744069414584320 (by decide) 5, inverses 7 (by decide) (by decide)⟩

end FieldPowers
