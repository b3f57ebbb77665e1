import StatelessEthereum.Interpolation

/- Evaluation form (verkle/utils/fft.py): the value of a polynomial at a point that may
   lie outside the domain, and the shift to a coset of it. -/
namespace PointEvaluation
open Polynomial PythonError PolyUtils Fft EvaluationDomain CoefficientLists PolyDivision
open Interpolation

section Operations
variable (modulus : Nat)

/-- `pow(base, exponent, modulus)`, where the base may be negative. -/
def pow (base : Int) (exponent : Nat) : Nat := powMod (base % modulus).toNat exponent modulus

/-- One level of the recursion: `comb`. -/
def comb (vals : List Int) (rootOfUnity x : Int) : List Int :=
  let half : Int := ((modulus + 1) / 2 : Nat)
  let invRoot : Int := pow modulus rootOfUnity (vals.length - 1)
  let fOfMinusXVals := vals.drop (vals.length / 2) ++ vals.take (vals.length / 2)
  let evens := List.zipWith (fun (f g : Int) => (f + g) * half % modulus) vals fOfMinusXVals
  let odds := List.zipWith (fun (f g : Int) => (f - g) * half % modulus) vals fOfMinusXVals
  (odds.zip evens).mapIdx fun i oe => (oe.1 * x * invRoot ^ i + oe.2) % modulus

/-- `inv_fft_at_point`, with a bound on its depth. On an empty list it has to invert
    the root and then calls itself without end. -/
def invFftRec : Nat → List Int → Int → Int → Except PyError Int
  | 0, _, _, _ => .error .diverges
  | depth + 1, vals, rootOfUnity, x =>
    if vals = [] then
      if Int.gcd rootOfUnity modulus = 1 then .error .recursionError else .error (.valueError "")
    else if vals.length = 1 then .ok (vals.getD 0 0)
    else invFftRec depth ((comb modulus vals rootOfUnity x).take (vals.length / 2))
      (rootOfUnity ^ 2 % modulus) (x ^ 2 % modulus)

def invFftAtPoint (vals : List Int) (rootOfUnity x : Int) : Except PyError Int :=
  invFftRec modulus (vals.length + 1) vals rootOfUnity x

/-- The loop of `shift_poly`. -/
def shiftLoop (invFactor : Int) : List Int → Int → List Int
  | [], _ => []
  | p :: poly, factorPower =>
    p * factorPower % modulus :: shiftLoop invFactor poly (factorPower * invFactor % modulus)

def shiftPoly (poly : List Int) (factor : Int) : List Int :=
  shiftLoop modulus (pow modulus factor (modulus - 2)) poly 1

end Operations

section Field
variable {modulus : Nat} [prime : Fact modulus.Prime]

theorem pow_cast (base : Int) (exponent : Nat) :
    (pow modulus base exponent : ZMod modulus) = (base : ZMod modulus) ^ exponent := by
  have positive : NeZero modulus := ⟨prime.out.ne_zero⟩
  have whole : (((base % modulus).toNat : Int) : ZMod modulus) = base := by
    rw [Int.toNat_of_nonneg (mod_reduced base).1, ZMod.intCast_mod]
  rw [pow, powMod_cast, ← whole, Int.cast_natCast]

theorem half_cast (two : (2 : ZMod modulus) ≠ 0) :
    (((modulus + 1) / 2 : Nat) : ZMod modulus) = 2⁻¹ := by
  have odd : ¬ 2 ∣ modulus := by
    intro divides
    rcases (Nat.dvd_prime prime.out).mp divides with one | same
    · cases one
    · apply two
      rw [← Nat.cast_two, same, ZMod.natCast_self]
  have twice : 2 * ((modulus + 1) / 2) = modulus + 1 := by omega
  apply eq_inv_of_mul_eq_one_right
  have known := congrArg (Nat.cast : Nat → ZMod modulus) twice
  rwa [Nat.cast_mul, Nat.cast_two, Nat.cast_add, ZMod.natCast_self, Nat.cast_one, zero_add] at known

section Lists
omit prime

theorem comb_length {vals : List Int} (rootOfUnity x : Int) :
    (comb modulus vals rootOfUnity x).length = vals.length := by
  simp [comb]
  omega

theorem comb_getD {vals : List Int} {m : Nat} (size : vals.length = 2 * m) (rootOfUnity x : Int)
    {i : Nat} (inside : i < m) : (comb modulus vals rootOfUnity x).getD i 0 =
      ((vals.getD i 0 - vals.getD (m + i) 0) * ((modulus + 1) / 2 : Nat) % modulus * x *
        pow modulus rootOfUnity (2 * m - 1) ^ i +
          (vals.getD i 0 + vals.getD (m + i) 0) * ((modulus + 1) / 2 : Nat) % modulus) % modulus := by
  have middle : vals.length / 2 = m := by omega
  have upper : (vals.drop m ++ vals.take m)[i]? = some (vals.getD (m + i) 0) := by
    rw [List.getElem?_append_left (by rw [List.length_drop]; omega), List.getElem?_drop,
      List.getElem?_eq_getElem (by omega), List.getD_eq_getElem _ _ (by omega)]
  have lower : vals[i]? = some (vals.getD i 0) := by
    rw [List.getElem?_eq_getElem (by omega), List.getD_eq_getElem _ _ (by omega)]
  generalize vals.getD i 0 = a at lower ⊢
  generalize vals.getD (m + i) 0 = b at upper ⊢
  rw [List.getD_eq_getElem?_getD, comb, middle, size, List.getElem?_mapIdx, List.zip_eq_zipWith]
  simp only [List.getElem?_zipWith, lower, upper, Option.map_some, Option.getD_some]

end Lists

theorem comb_residues {vals : List Int} {m : Nat} (size : vals.length = 2 * m) {root : Int}
    (primitive : IsPrimitiveRoot (root : ZMod modulus) (2 * m)) (x : Int) {i : Nat} (inside : i < m) :
    (residues (comb modulus vals root x) i : ZMod modulus) =
      (residues vals i - residues vals (m + i)) / 2 * (x : ZMod modulus) * (root : ZMod modulus)⁻¹ ^ i +
        (residues vals i + residues vals (m + i)) / 2 := by
  have two : (2 : ZMod modulus) ≠ 0 := by
    have order := order_unit primitive (by omega)
    rw [Nat.cast_mul, Nat.cast_two] at order
    exact left_ne_zero_of_mul order
  have inverse : (root : ZMod modulus) ^ (2 * m - 1) = (root : ZMod modulus)⁻¹ := by
    apply eq_inv_of_mul_eq_one_left
    rw [← pow_succ, show 2 * m - 1 + 1 = 2 * m by omega, primitive.pow_eq_one]
  rw [residues, comb_getD size root x inside]
  simp only [residues, Int.cast_add, Int.cast_mul, Int.cast_sub, Int.cast_pow, Int.cast_natCast,
    ZMod.intCast_mod, pow_cast, half_cast two, inverse, div_eq_mul_inv]

theorem comb_reduced (vals : List Int) (root x : Int) :
    Reduced modulus (comb modulus vals root x) := by
  have positive : NeZero modulus := ⟨prime.out.ne_zero⟩
  intro c member
  obtain ⟨i, inside, rfl⟩ := List.mem_mapIdx.mp member
  exact mod_reduced _

theorem interp_single_node {u : ZMod modulus} (root : IsPrimitiveRoot u 1)
    (v : Nat → ZMod modulus) : interp u 1 v = C (v 0) := by
  symm
  refine eq_interp root (degree_C_le.trans_lt (by decide)) fun i inside => ?_
  rw [eval_C, Nat.lt_one_iff.mp inside]

theorem invFftRec_value (k : Nat) {depth : Nat} (deep : k < depth) {vals : List Int}
    (size : vals.length = 2 ^ k) {root : Int}
    (primitive : IsPrimitiveRoot (root : ZMod modulus) (2 ^ k)) (x : Int) :
    ∃ v, invFftRec modulus depth vals root x = .ok v ∧
      (v : ZMod modulus) = (interp (root : ZMod modulus) (2 ^ k) (residues vals)).eval (x : ZMod modulus) ∧
      (0 < k ∨ Reduced modulus vals → 0 ≤ v ∧ v < modulus) := by
  induction k generalizing depth vals root x with
  | zero =>
    obtain ⟨depth, rfl⟩ := Nat.exists_eq_add_one_of_ne_zero (Nat.ne_of_gt deep)
    rw [pow_zero] at size
    have some : vals ≠ [] := List.ne_nil_of_length_pos (by omega)
    refine ⟨vals.getD 0 0, ?_, ?_, ?_⟩
    · rw [invFftRec, if_neg some, if_pos size]
    · rw [pow_zero] at primitive ⊢
      rw [interp_single_node primitive, eval_C]
      rfl
    · intro reduced
      have small := reduced.resolve_left (Nat.lt_irrefl 0)
      rw [List.getD_eq_getElem _ _ (by omega)]
      exact small _ (List.getElem_mem _)
  | succ k ih =>
    obtain ⟨depth, rfl⟩ := Nat.exists_eq_add_one_of_ne_zero (Nat.ne_of_gt (Nat.zero_lt_of_lt deep))
    have twice : vals.length = 2 * 2 ^ k := by rw [size, pow_succ']
    have middle : vals.length / 2 = 2 ^ k := by omega
    have positive := Nat.two_pow_pos k
    have some : vals ≠ [] := List.ne_nil_of_length_pos (by omega)
    rw [pow_succ'] at primitive
    have squared : ((root ^ 2 % modulus : Int) : ZMod modulus) = (root : ZMod modulus) ^ 2 := by
      rw [ZMod.intCast_mod, Int.cast_pow]
    have square : IsPrimitiveRoot ((root ^ 2 % modulus : Int) : ZMod modulus) (2 ^ k) := by
      rw [squared]
      exact primitive.pow (by omega) rfl
    have half : ((comb modulus vals root x).take (vals.length / 2)).length = 2 ^ k := by
      rw [List.length_take, comb_length, middle, twice]
      omega
    obtain ⟨v, ran, value, small⟩ := ih (Nat.lt_of_succ_lt_succ deep) half square (x ^ 2 % modulus)
    refine ⟨v, ?_, ?_, fun _ => small (Or.inr fun c member =>
      comb_reduced vals root x c (List.mem_of_mem_take member))⟩
    · rw [invFftRec, if_neg some, if_neg (by omega)]
      exact ran
    · rw [value, pow_succ' 2 k, interp_half_eval primitive positive, squared, ZMod.intCast_mod,
        Int.cast_pow]
      congr 1
      apply interp_congr (squared ▸ square)
      intro i inside
      rw [← comb_residues twice primitive x inside, residues, residues, middle,
        List.getD_eq_getElem?_getD, List.getElem?_take_of_lt inside, List.getD_eq_getElem?_getD]

theorem remainder_unique {a b : Int} (same : (a : ZMod modulus) = b) (small : 0 ≤ b ∧ b < modulus) :
    a % modulus = b := by
  rw [(ZMod.intCast_eq_intCast_iff' a b modulus).mp same, Int.emod_eq_of_lt small.1 small.2]

/-- Coefficients of a polynomial that is given by its values on the domain. -/
theorem polyOf_interp {k : Nat} {u : ZMod modulus} {coeffs : List Int}
    (size : coeffs.length ≤ 2 ^ k) {v : Nat → ZMod modulus} (primitive : IsPrimitiveRoot u (2 ^ k))
    (coefficients : ∀ j < 2 ^ k, residues coeffs j = (interp u (2 ^ k) v).coeff j) :
    polyOf modulus coeffs = interp u (2 ^ k) v := by
  ext j
  rw [polyOf_coeff]
  rcases Nat.lt_or_ge j (2 ^ k) with inside | beyond
  · exact coefficients j inside
  · rw [residues_beyond (size.trans beyond), coeff_eq_zero_of_degree_lt]
    exact (interp_degree primitive v).trans_le (Nat.cast_le.mpr beyond)

/-- The value at a point without the coefficients is the one with them. -/
theorem inv_fft_at_point_eval {root : Int} {k : Nat} (order : orderOf (root : ZMod modulus) = 2 ^ k)
    (canonical : Canonical root modulus k) {vals : List Int} (size : vals.length = 2 ^ k) (x : Int) :
    ∃ v coeffs, invFftAtPoint modulus vals root x = .ok v ∧
      fft vals modulus root true = .ok coeffs ∧ v % modulus = evalPolyAt modulus coeffs x ∧
      (1 < vals.length → v = evalPolyAt modulus coeffs x) := by
  have primitive := IsPrimitiveRoot.iff_orderOf.mpr order
  have deep : k < vals.length + 1 := by
    have bound := Nat.lt_two_pow_self (n := k)
    omega
  obtain ⟨v, ran, value, small⟩ := invFftRec_value k deep size primitive x
  obtain ⟨coeffs, inverse, count, _, coefficients⟩ := fft_inverse primitive canonical size.le
  have same : (v : ZMod modulus) = evalPolyAt modulus coeffs x := by
    rw [value, evalPolyAt_eval, polyOf_interp count.le primitive coefficients]
  have reduced := remainder_unique same (evalPolyAt_reduced coeffs x)
  refine ⟨v, coeffs, ran, inverse, reduced, fun many => ?_⟩
  have positive : 0 < k := by
    rw [Nat.pos_iff_ne_zero]
    rintro rfl
    omega
  obtain ⟨low, high⟩ := small (Or.inl positive)
  rw [← reduced, Int.emod_eq_of_lt low high]

theorem inv_fft_at_point_eval_sample : ∃ v coeffs,
    invFftAtPoint 17 [7, -1, 3, 30, 2, 0, 5, 1] 9 100 = .ok v ∧
      fft [7, -1, 3, 30, 2, 0, 5, 1] 17 9 true = .ok coeffs ∧ v = evalPolyAt 17 coeffs 100 := by
  have prime : Fact (Nat.Prime 17) := ⟨by norm_num⟩
  obtain ⟨v, coeffs, ran, inverse, _, same⟩ := inv_fft_at_point_eval nine_order
    (Or.inl (by decide)) (show [7, -1, 3, 30, 2, 0, 5, 1].length = 2 ^ 3 by decide) 100
  exact ⟨v, coeffs, ran, inverse, same (by decide)⟩

/- The coset. -/

omit prime in
theorem shiftLoop_length (invFactor : Int) (poly : List Int) (factorPower : Int) :
    (shiftLoop modulus invFactor poly factorPower).length = poly.length := by
  induction poly generalizing factorPower with
  | nil => rfl
  | cons p poly ih => rw [shiftLoop, List.length_cons, List.length_cons, ih]

theorem shiftLoop_eval (invFactor : Int) (poly : List Int) (factorPower : Int) (y : ZMod modulus) :
    (polyOf modulus (shiftLoop modulus invFactor poly factorPower)).eval y =
      factorPower * (polyOf modulus poly).eval (invFactor * y) := by
  induction poly generalizing factorPower with
  | nil => simp [shiftLoop]
  | cons p poly ih =>
    rw [shiftLoop, polyOf_cons, polyOf_cons, eval_add, eval_add, eval_mul, eval_mul, eval_X, eval_X,
      eval_C, eval_C, ih, ZMod.intCast_mod, ZMod.intCast_mod, Int.cast_mul, Int.cast_mul]
    ring

/-- `shift_poly` divides the argument by the factor. -/
theorem shiftPoly_eval (poly : List Int) {factor : Int} (unit : (factor : ZMod modulus) ≠ 0)
    (y : ZMod modulus) : (polyOf modulus (shiftPoly modulus poly factor)).eval y =
      (polyOf modulus poly).eval ((factor : ZMod modulus)⁻¹ * y) := by
  have inverse : ((pow modulus factor (modulus - 2) : Int) : ZMod modulus) =
      (factor : ZMod modulus)⁻¹ := by
    have fermat := ZMod.pow_card_sub_one_eq_one unit
    have large := prime.out.two_le
    rw [Int.cast_natCast, pow_cast]
    apply eq_inv_of_mul_eq_one_left
    rw [← pow_succ, show modulus - 2 + 1 = modulus - 1 by omega, fermat]
  rw [shiftPoly, shiftLoop_eval, Int.cast_one, one_mul, inverse]

/-- A shifted polynomial in evaluation form, read at the shifted point. -/
theorem shifted_point_eval {root : Int} {k : Nat} (order : orderOf (root : ZMod modulus) = 2 ^ k)
    (canonical : Canonical root modulus k) {poly : List Int} (few : poly.length ≤ 2 ^ k)
    {factor : Int} (unit : ¬ (modulus : Int) ∣ factor) :
    ∃ vals, fft (shiftPoly modulus poly factor) modulus root false = .ok vals ∧
      vals.length = 2 ^ k ∧
      (∀ i < 2 ^ k, ∀ y : Int, (modulus : Int) ∣ factor * y - root ^ i →
        vals.getD i 0 = evalPolyAt modulus poly y) ∧
      ∀ x : Int, ∃ v, invFftAtPoint modulus vals root (factor * x) = .ok v ∧
        v % modulus = evalPolyAt modulus poly x := by
  have primitive := IsPrimitiveRoot.iff_orderOf.mpr order
  have nonzero : (factor : ZMod modulus) ≠ 0 := by
    rwa [ne_eq, ZMod.intCast_zmod_eq_zero_iff_dvd]
  have short : (shiftPoly modulus poly factor).length ≤ 2 ^ k := by
    rwa [shiftPoly, shiftLoop_length]
  obtain ⟨vals, forward, transforms⟩ := fft_forward primitive canonical short
  have low : (polyOf modulus (shiftPoly modulus poly factor)).degree < (2 ^ k : Nat) :=
    (polyOf_degree _).trans_le (Nat.cast_le.mpr short)
  have values : ∀ i < 2 ^ k, (residues vals i : ZMod modulus) =
      (polyOf modulus (shiftPoly modulus poly factor)).eval ((root : ZMod modulus) ^ i) := by
    intro i inside
    rw [transforms.values i inside, ← dft_coeff _ low]
    exact dft_congr (fun j _ => (polyOf_coeff _ j).symm) i
  have whole := eq_interp primitive low fun i inside => (values i inside).symm
  refine ⟨vals, forward, transforms.length, ?_, ?_⟩
  · intro i inside y coset
    have place : (factor : ZMod modulus) * y = (root : ZMod modulus) ^ i := by
      have zero := (ZMod.intCast_zmod_eq_zero_iff_dvd _ _).mpr coset
      rw [Int.cast_sub, Int.cast_mul, Int.cast_pow] at zero
      exact sub_eq_zero.mp zero
    have same : ((vals.getD i 0 : Int) : ZMod modulus) = evalPolyAt modulus poly y := by
      rw [← residues, values i inside, shiftPoly_eval poly nonzero, ← place,
        inv_mul_cancel_left₀ nonzero, evalPolyAt_eval]
    have small : 0 ≤ vals.getD i 0 ∧ vals.getD i 0 < modulus := by
      rw [List.getD_eq_getElem _ _ (by rw [transforms.length]; exact inside)]
      exact transforms.reduced _ (List.getElem_mem _)
    rw [← remainder_unique same (evalPolyAt_reduced poly y), Int.emod_eq_of_lt small.1 small.2]
  · intro x
    have deep : k < vals.length + 1 := by
      have bound := Nat.lt_two_pow_self (n := k)
      rw [transforms.length]
      omega
    obtain ⟨v, ran, value, _⟩ := invFftRec_value k deep transforms.length primitive (factor * x)
    refine ⟨v, ran, remainder_unique ?_ (evalPolyAt_reduced poly x)⟩
    rw [value, ← whole, shiftPoly_eval poly nonzero, evalPolyAt_eval, Int.cast_mul,
      inv_mul_cancel_left₀ nonzero]

theorem shifted_point_eval_sample : ∃ vals,
    fft (shiftPoly 17 [7, -1, 3, 30, 2] 5) 17 9 false = .ok vals ∧
      ∃ v, invFftAtPoint 17 vals 9 (5 * 100) = .ok v ∧
        v % 17 = evalPolyAt 17 [7, -1, 3, 30, 2] 100 := by
  have prime : Fact (Nat.Prime 17) := ⟨by norm_num⟩
  obtain ⟨vals, forward, _, _, evaluates⟩ := shifted_point_eval nine_order (Or.inl (by decide))
    (show [7, -1, 3, 30, 2].length ≤ 2 ^ 3 by decide) (show ¬ ((17 : Nat) : Int) ∣ 5 by decide)
  exact ⟨vals, forward, evaluates 100⟩

end Field

end PointEvaluation
