import StatelessEthereum.PythonError
import Mathlib.Data.ZMod.Basic
import Mathlib.Algebra.Field.ZMod
import Mathlib.RingTheory.Coprime.Lemmas
import Mathlib.NumberTheory.LucasPrimality
import Mathlib.Tactic.LinearCombination
import Mathlib.Tactic.FieldSimp

/- Arithmetic modulo a prime on Python integers (verkle/utils/poly_utils.py),
   and what it computes in the prime field. -/
namespace PolyUtils

/-- The built-in `pow(base, exponent, modulus)`, by the bits of the exponent. -/
def powBits (base modulus : Nat) : Nat → Nat → Nat
  | 0, _ => 1 % modulus
  | bits + 1, exponent =>
    let half := powBits base modulus bits (exponent / 2)
    if exponent % 2 = 0 then half * half % modulus else half * half % modulus * base % modulus

def powMod (base exponent modulus : Nat) : Nat :=
  powBits base modulus (exponent.log2 + 1) exponent

section Operations
variable (modulus : Nat)

def sub (x y : Int) : Int := (x - y) % modulus

def mul (x y : Int) : Int := x * y % modulus

/-- The loop of the extended Euclidean algorithm. Its second remainder falls
    with every turn, so the modulus bounds the number of turns. -/
def invLoop : Nat → Int → Int → Int → Int → Int
  | 0, lm, _, _, _ => lm
  | turns + 1, lm, hm, low, high =>
    if 1 < low then
      invLoop turns (hm - lm * (high / low)) lm (high - low * (high / low)) low
    else lm

def inv (a : Int) : Int :=
  if a = 0 then 0 else invLoop modulus 1 0 (a % modulus) modulus % modulus

def div (x y : Int) : Int := mul modulus x (inv modulus y)

/-- `values[i] or 1` -/
def orOne (v : Int) : Int := if v = 0 then 1 else v

def partials : Int → List Int → List Int
  | p, [] => [p]
  | p, v :: values => p :: partials (mul modulus p (orOne v)) values

/-- The loop of `multi_inv` from the last value to the first. -/
def multiInvLoop (inverse : Int) (values partials : List Int) : Int × List Int :=
  (values.zip partials).foldr (fun e state =>
    (mul modulus state.1 (orOne e.1),
      (if e.1 = 0 then 0 else mul modulus e.2 state.1) :: state.2)) (inverse, [])

def multiInv (values : List Int) : List Int :=
  let products := partials modulus 1 values
  (multiInvLoop modulus (inv modulus (products.getLastD 1)) values products).2

/-- The loop of `eval_poly_at` with the power of `x` it has reached. -/
def evalLoop (x : Int) : List Int → Int → Int → Int
  | [], y, _ => y
  | c :: p, y, power => evalLoop x p (y + power * c) (power * x % modulus)

def evalPolyAt (p : List Int) (x : Int) : Int := evalLoop modulus x p 0 1 % modulus

end Operations

/- Powers. -/

theorem powBits_eq (base modulus : Nat) (bits exponent : Nat) (small : exponent < 2 ^ bits) :
    powBits base modulus bits exponent = base ^ exponent % modulus := by
  induction bits generalizing exponent with
  | zero =>
    have none : exponent = 0 := by omega
    simp [powBits, none]
  | succ bits ih =>
    have half := ih (exponent / 2) (by rw [pow_succ] at small; omega)
    have parts := Nat.div_add_mod exponent 2
    simp only [powBits, half]
    split
    · rename_i even
      have square : base ^ exponent = base ^ (exponent / 2) * base ^ (exponent / 2) := by
        rw [← pow_add]; congr 1; omega
      rw [square, ← Nat.mul_mod]
    · rename_i odd
      have square : base ^ exponent = base ^ (exponent / 2) * base ^ (exponent / 2) * base := by
        rw [← pow_add, ← pow_succ]; congr 1; omega
      rw [square, ← Nat.mul_mod, Nat.mod_mul_mod]

theorem powMod_eq (base exponent modulus : Nat) :
    powMod base exponent modulus = base ^ exponent % modulus :=
  powBits_eq base modulus _ exponent Nat.lt_log2_self

theorem powMod_cast (base exponent modulus : Nat) :
    (powMod base exponent modulus : ZMod modulus) = (base : ZMod modulus) ^ exponent := by
  rw [powMod_eq, ZMod.natCast_mod, Nat.cast_pow]

theorem powMod_one_iff {modulus : Nat} (large : 1 < modulus) (base exponent : Nat) :
    powMod base exponent modulus = 1 ↔ (base : ZMod modulus) ^ exponent = 1 := by
  have congruent := ZMod.natCast_eq_natCast_iff' (powMod base exponent modulus) 1 modulus
  rw [Nat.cast_one, powMod_cast, Nat.mod_eq_of_lt large, powMod_eq, Nat.mod_mod] at congruent
  rw [powMod_eq, congruent]

theorem prime_by_powers {modulus base : Nat} {factors : List Nat} (large : 1 < modulus)
    (known : ∀ q : Nat, q.Prime → q ∣ modulus - 1 → q ∈ factors)
    (whole : powMod base (modulus - 1) modulus = 1)
    (parts : ∀ q ∈ factors, powMod base ((modulus - 1) / q) modulus ≠ 1) : modulus.Prime := by
  apply lucas_primality modulus base ((powMod_one_iff large base _).mp whole)
  intro q prime divides one
  exact parts q (known q prime divides) ((powMod_one_iff large base _).mpr one)

/- What the operations compute in the field. -/
section Field
variable {modulus : Nat}

@[simp] theorem sub_cast (x y : Int) : (sub modulus x y : ZMod modulus) = x - y := by
  simp [sub]

@[simp] theorem mul_cast (x y : Int) : (mul modulus x y : ZMod modulus) = x * y := by
  simp [mul]

theorem evalLoop_cast (x : Int) (p : List Int) (y power : Int) :
    (evalLoop modulus x p y power : ZMod modulus) =
      y + power * ((List.range p.length).map fun i => (p.getD i 0 : ZMod modulus) * x ^ i).sum := by
  induction p generalizing y power with
  | nil => simp [evalLoop]
  | cons c p ih =>
    rw [evalLoop, ih, List.length_cons, List.range_succ_eq_map, List.map_cons, List.sum_cons,
      List.map_map]
    have shift : ((List.range p.length).map
        ((fun i => ((c :: p).getD i 0 : ZMod modulus) * (x : ZMod modulus) ^ i) ∘ Nat.succ)).sum =
          (x : ZMod modulus) *
            ((List.range p.length).map fun i => (p.getD i 0 : ZMod modulus) * x ^ i).sum := by
      rw [← List.sum_map_mul_left]
      congr 1
      apply List.map_congr_left
      intro i _
      simp only [Function.comp_apply, List.getD_cons_succ, pow_succ]
      ring
    rw [shift]
    simp only [List.getD_cons_zero, Int.cast_add, Int.cast_mul, pow_zero, mul_one,
      ZMod.intCast_mod]
    ring

theorem evalPolyAt_cast (p : List Int) (x : Int) : (evalPolyAt modulus p x : ZMod modulus) =
    ((List.range p.length).map fun i => (p.getD i 0 : ZMod modulus) * x ^ i).sum := by
  rw [evalPolyAt, ZMod.intCast_mod, evalLoop_cast]
  simp

/-- The loop's invariant: each multiplier times the number is its remainder. -/
theorem invLoop_cast (a : ZMod modulus) (turns : Nat) (lm hm low high : Int)
    (enough : low ≤ turns) (positive : 0 < low) (coprime : IsCoprime low high)
    (lowEq : (lm : ZMod modulus) * a = low) (highEq : (hm : ZMod modulus) * a = high) :
    (invLoop turns lm hm low high : ZMod modulus) * a = 1 := by
  induction turns generalizing lm hm low high with
  | zero => simp at enough; omega
  | succ turns ih =>
    rw [invLoop]
    split
    · rename_i more
      have remainder : high - low * (high / low) = high % low := by
        have parts := Int.mul_ediv_add_emod high low
        omega
      have below := Int.emod_lt_of_pos high positive
      have nonneg := Int.emod_nonneg high (by omega : low ≠ 0)
      have coprime' : IsCoprime (high - low * (high / low)) low := by
        have moved := coprime.symm.add_mul_left_left (-(high / low))
        have same : high + low * -(high / low) = high - low * (high / low) := by ring
        rwa [same] at moved
      refine ih _ _ _ _ (by push_cast at enough; omega) ?_ coprime' ?_ lowEq
      · rcases Int.lt_or_eq_of_le nonneg with some | none
        · omega
        · rw [remainder, ← none, isCoprime_zero_left, Int.isUnit_iff] at coprime'
          omega
      · push_cast
        linear_combination highEq - ((high / low : Int) : ZMod modulus) * lowEq
    · rename_i last
      have one : low = 1 := by omega
      rw [lowEq, one, Int.cast_one]

variable [prime : Fact modulus.Prime]

/-- `inv` inverts every non-zero residue and leaves zero. -/
theorem inv_cast {a : Int} (proper : (a : ZMod modulus) = 0 → a = 0) :
    (inv modulus a : ZMod modulus) = (a : ZMod modulus)⁻¹ := by
  unfold inv
  split
  · rename_i zero
    simp [zero]
  · rename_i some
    have unit : (a : ZMod modulus) ≠ 0 := fun zero => some (proper zero)
    have positive : (0 : Int) < modulus := by exact_mod_cast prime.out.pos
    have residue : (a % modulus : Int) ≠ 0 := by
      intro zero
      exact unit ((ZMod.intCast_zmod_eq_zero_iff_dvd a modulus).mpr (Int.dvd_of_emod_eq_zero zero))
    have nonneg := Int.emod_nonneg a (Int.ne_of_gt positive)
    have below := Int.emod_lt_of_pos a positive
    have coprime : IsCoprime (a % modulus : Int) (modulus : Int) := by
      rw [Int.isCoprime_iff_gcd_eq_one, Int.gcd_comm]
      have coprimeNat : Nat.Coprime modulus (a % modulus).natAbs := by
        apply (Nat.Prime.coprime_iff_not_dvd prime.out).mpr
        intro divides
        have le := Nat.le_of_dvd (by omega) divides
        omega
      simpa [Int.gcd] using coprimeNat
    have product := invLoop_cast (a : ZMod modulus) modulus 1 0 (a % modulus) modulus (by omega)
      (by omega) coprime (by simp) (by simp)
    rw [ZMod.intCast_mod]
    exact eq_inv_of_mul_eq_one_left product

theorem inv_residue (a : Int) : 0 ≤ inv modulus a ∧ inv modulus a < modulus := by
  have positive : (0 : Int) < modulus := by exact_mod_cast prime.out.pos
  unfold inv
  split
  · exact ⟨Int.le_refl _, positive⟩
  · exact ⟨Int.emod_nonneg _ (Int.ne_of_gt positive), Int.emod_lt_of_pos _ positive⟩

theorem div_cast {x y : Int} (proper : (y : ZMod modulus) = 0 → y = 0) :
    (div modulus x y : ZMod modulus) = x / y := by
  rw [div, mul_cast, inv_cast proper, div_eq_mul_inv]

/- Batched inversion. -/

theorem orOne_unit {v : Int} (proper : (v : ZMod modulus) = 0 → v = 0) :
    (orOne v : ZMod modulus) ≠ 0 := by
  unfold orOne
  split
  · simp
  · rename_i some
    exact fun zero => some (proper zero)

omit prime in
theorem partials_last (p d d' : Int) (values : List Int) :
    (partials modulus p values).getLastD d = (partials modulus p values).getLastD d' := by
  cases values with
  | nil => rfl
  | cons v values =>
    rw [partials, List.getLastD_cons, List.getLastD_cons]

theorem partials_unit (p : Int) (values : List Int) (unit : (p : ZMod modulus) ≠ 0)
    (proper : ∀ v ∈ values, (v : ZMod modulus) = 0 → v = 0) :
    (((partials modulus p values).getLastD 1 : Int) : ZMod modulus) ≠ 0 := by
  induction values generalizing p with
  | nil => simpa [partials] using unit
  | cons v values ih =>
    have unit' : ((mul modulus p (orOne v) : Int) : ZMod modulus) ≠ 0 := by
      rw [mul_cast]
      exact mul_ne_zero unit (orOne_unit (proper v List.mem_cons_self))
    have next := ih (mul modulus p (orOne v)) unit'
      fun w member => proper w (List.mem_cons_of_mem _ member)
    rwa [partials, List.getLastD_cons, partials_last _ p 1]

/-- From the last value down, the running inverse is that of the product so far. -/
theorem multiInvLoop_cast (values : List Int) (p inverse : Int) (unit : (p : ZMod modulus) ≠ 0)
    (proper : ∀ v ∈ values, (v : ZMod modulus) = 0 → v = 0)
    (last : (inverse : ZMod modulus) =
      (((partials modulus p values).getLastD 1 : Int) : ZMod modulus)⁻¹) :
    ((multiInvLoop modulus inverse values (partials modulus p values)).1 : ZMod modulus) =
        (p : ZMod modulus)⁻¹ ∧
      (multiInvLoop modulus inverse values (partials modulus p values)).2.map
          (Int.cast : Int → ZMod modulus) = values.map fun v : Int => (v : ZMod modulus)⁻¹ := by
  induction values generalizing p with
  | nil => exact ⟨by simpa [partials, multiInvLoop] using last, rfl⟩
  | cons v values ih =>
    have unitV := orOne_unit (proper v List.mem_cons_self)
    have unit' : ((mul modulus p (orOne v) : Int) : ZMod modulus) ≠ 0 := by
      rw [mul_cast]
      exact mul_ne_zero unit unitV
    have last' : (inverse : ZMod modulus) =
        (((partials modulus (mul modulus p (orOne v)) values).getLastD 1 : Int) :
          ZMod modulus)⁻¹ := by
      rw [last, partials, List.getLastD_cons, partials_last _ p 1]
    obtain ⟨running, rest⟩ := ih _ unit' (fun w member => proper w (List.mem_cons_of_mem _ member))
      last'
    rw [mul_cast] at running
    have unfolded : multiInvLoop modulus inverse (v :: values) (partials modulus p (v :: values)) =
        (mul modulus (multiInvLoop modulus inverse values
            (partials modulus (mul modulus p (orOne v)) values)).1 (orOne v),
          (if v = 0 then 0 else mul modulus p (multiInvLoop modulus inverse values
            (partials modulus (mul modulus p (orOne v)) values)).1) ::
              (multiInvLoop modulus inverse values
                (partials modulus (mul modulus p (orOne v)) values)).2) := rfl
    rw [unfolded]
    constructor
    · rw [mul_cast, running, mul_inv, mul_assoc, inv_mul_cancel₀ unitV, mul_one]
    · rw [List.map_cons, List.map_cons, rest]
      congr 1
      split
      · rename_i zero
        simp [zero]
      · rename_i some
        have same : orOne v = v := by simp [orOne, some]
        rw [mul_cast, running, same, mul_inv, ← mul_assoc, mul_inv_cancel₀ unit, one_mul]

/-- `multi_inv` inverts entry by entry. -/
theorem multiInv_cast {values : List Int} (proper : ∀ v ∈ values, (v : ZMod modulus) = 0 → v = 0) :
    (multiInv modulus values).map (Int.cast : Int → ZMod modulus) =
      values.map fun v : Int => (v : ZMod modulus)⁻¹ :=
  have one : ((1 : Int) : ZMod modulus) ≠ 0 := by simp
  (multiInvLoop_cast values 1 _ one proper
    (inv_cast fun zero => absurd zero (partials_unit 1 values one proper))).2.trans (by simp)

end Field

end PolyUtils
