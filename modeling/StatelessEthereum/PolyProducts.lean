import StatelessEthereum.PolyDivision

/- Products of polynomials by two forward transforms and a third one at the powers of
   the root in reverse (verkle/utils/fft.py). -/
namespace PolyProducts
open PythonError PolyUtils EvaluationDomain Fft Polynomial
open PolyDivision (polyOf polyOf_coeff polyOf_degree mulPolys_poly mulPolys_length)

/-- The loop of the powers is that of `expand_root_of_unity`, written out again. -/
def mulPolys (a b : List Int) (modulus : Nat) (root : Int) : Except PyError (List Int) := do
  let rootz ← expandRootOfUnity root modulus
  let a := if a.length + 1 < rootz.length then
    a ++ List.replicate (rootz.length - a.length - 1) 0 else a
  let b := if b.length + 1 < rootz.length then
    b ++ List.replicate (rootz.length - b.length - 1) 0 else b
  let x1 ← fftRec modulus (a.length + 1) a rootz.dropLast
  let x2 ← fftRec modulus (b.length + 1) b rootz.dropLast
  let products := (x1.zip x2).map fun v => v.1 * v.2 % (modulus : Int)
  fftRec modulus (products.length + 1) products rootz.tail.reverse

section Field
variable {modulus : Nat}

theorem polyOf_residues (vals : List Int) : (polyOf modulus vals).coeff = residues vals :=
  funext fun j => polyOf_coeff vals j

theorem polyOf_low {vals : List Int} {n : Nat} (few : vals.length ≤ n) :
    (polyOf modulus vals).degree < n :=
  (polyOf_degree vals).trans_le (WithBot.coe_le_coe.mpr few)

/-- The product of two lists of coefficients, reduced modulo X^n - 1. -/
noncomputable def wrapped (modulus n : Nat) (a b : List Int) : (ZMod modulus)[X] :=
  (polyOf modulus a * polyOf modulus b) %ₘ (X ^ n - 1)

theorem products_residues {x1 x2 : List Int} {n i : Nat} (size : x1.length = n)
    (size' : x2.length = n) (inside : i < n) :
    (residues ((x1.zip x2).map fun v => v.1 * v.2 % (modulus : Int)) i : ZMod modulus) =
      residues x1 i * residues x2 i := by
  have left : i < x1.length := by omega
  have right : i < x2.length := by omega
  rw [residues_get left, residues_get right, residues_get (by simp; omega)]
  simp

/-- The coefficients of the product, reduced modulo X^n - 1, as the code keeps residues. -/
structure IsProduct (modulus n : Nat) (a b out : List Int) : Prop where
  length : out.length = n
  reduced : Reduced modulus out
  coefficients : ∀ j < n, (residues out j : ZMod modulus) = (wrapped modulus n a b).coeff j

variable [prime : Fact modulus.Prime]

theorem size_one {u : ZMod modulus} {n : Nat} (primitive : IsPrimitiveRoot u n)
    (one : (n : ZMod modulus) = 1) : n = 1 := by
  have large := prime.out.one_lt
  have some : 0 < n := by
    rcases Nat.eq_zero_or_pos n with none | some
    · rw [none, Nat.cast_zero] at one
      exact absurd one zero_ne_one
    · exact some
  have fermat := ZMod.pow_card_sub_one_eq_one (primitive.ne_zero some.ne')
  have below := Nat.le_of_dvd (by omega) (primitive.dvd_of_pow_eq_one _ fermat)
  have same : (n : ZMod modulus) = (1 : Nat) := by rw [one, Nat.cast_one]
  have residue := (ZMod.natCast_eq_natCast_iff' _ _ _).mp same
  rwa [Nat.mod_eq_of_lt (by omega), Nat.mod_eq_of_lt large] at residue

section Root
variable {root : Int} {k : Nat} (primitive : IsPrimitiveRoot (root : ZMod modulus) (2 ^ k))
  (canonical : Canonical root modulus k) {a b : List Int} (few : a.length ≤ 2 ^ k)
  (few' : b.length ≤ 2 ^ k)
include primitive canonical few few'

/-- Every coefficient of the product comes out as often as the domain has points. -/
theorem mulPolys_scaled : ∃ out, mulPolys a b modulus root = .ok out ∧ out.length = 2 ^ k ∧
    Reduced modulus out ∧ ∀ j < 2 ^ k, residues out j =
      ((2 ^ k : Nat) : ZMod modulus) * (wrapped modulus (2 ^ k) a b).coeff j := by
  obtain ⟨rootz, expanded, count, powers⟩ := canonical_powers primitive canonical
  obtain ⟨full, filled, size, same⟩ := padded modulus few count
  obtain ⟨full', filled', size', same'⟩ := padded modulus few' count
  have deep : k < 2 ^ k + 1 := by
    have bound := Nat.lt_two_pow_self (n := k)
    omega
  have turned : rootz.dropLast.length = 2 ^ k := by simp [count]
  have reversed : rootz.tail.reverse.length = 2 ^ k := by simp [count]
  obtain ⟨x1, run1, first⟩ := fftRec_transforms k primitive size turned (powers_dropLast powers) deep
  obtain ⟨x2, run2, second⟩ :=
    fftRec_transforms k primitive size' turned (powers_dropLast powers) deep
  have paired : ((x1.zip x2).map fun v => v.1 * v.2 % (modulus : Int)).length = 2 ^ k := by
    simp [first.length, second.length]
  obtain ⟨out, run, third⟩ := fftRec_transforms k primitive.inv paired reversed
    (powers_reversed primitive.pow_eq_one count powers) deep
  refine ⟨out, ?_, third.length, third.reduced, fun j inside => ?_⟩
  · simp only [mulPolys, expanded, filled, filled', bind, Except.bind, size, size', run1, run2,
      paired, run]
  · have pointwise (i : Nat) (within : i < 2 ^ k) :
        residues ((x1.zip x2).map fun v => v.1 * v.2 % (modulus : Int)) i =
          dft (root : ZMod modulus) (2 ^ k) (wrapped modulus (2 ^ k) a b).coeff i := by
      rw [products_residues first.length second.length within, first.values i within,
        second.values i within, same, same', ← polyOf_residues a,
        ← polyOf_residues b]
      exact dft_product (Nat.two_pow_pos k) primitive.pow_eq_one (polyOf_low few)
        (polyOf_low few') i
    rw [third.values j inside, dft_congr pointwise, dft_reversed primitive _ inside]

/-- What the inverse transform of the same file does besides would give the product. -/
theorem mulPolys_rescaled : ∃ out, mulPolys a b modulus root = .ok out ∧
    IsProduct modulus (2 ^ k) a b
      (out.map fun x => x * powMod (2 ^ k) (modulus - 2) modulus % modulus) := by
  have positive : NeZero modulus := ⟨prime.out.ne_zero⟩
  obtain ⟨out, run, length, _, values⟩ := mulPolys_scaled primitive canonical few few'
  have order := order_unit primitive (Nat.two_pow_pos k)
  refine ⟨out, run, by simp [length], ?_, fun j inside => ?_⟩
  · intro c member
    obtain ⟨x, _, rfl⟩ := List.mem_map.mp member
    exact mod_reduced _
  · have value := values j inside
    rw [residues_get (by omega)] at value
    rw [residues_get (by simp; omega), List.getElem_map, ZMod.intCast_mod, Int.cast_mul, value,
      Int.cast_natCast, powMod_inverse order, mul_comm, inv_mul_cancel_left₀ order]

/-- Rescaled, a product that fits the domain is the one of the schoolbook loops. -/
theorem mulPolys_schoolbook (fits : a.length + b.length ≤ 2 ^ k + 1) :
    ∃ out, mulPolys a b modulus root = .ok out ∧
      (out.map fun x => x * powMod (2 ^ k) (modulus - 2) modulus % (modulus : Int)) =
        zeroPadded modulus (2 ^ k) (PolyDivision.mulPolys modulus a b) := by
  obtain ⟨out, run, product⟩ := mulPolys_rescaled primitive canonical few few'
  have short : (PolyDivision.mulPolys modulus a b).length ≤ 2 ^ k := by
    rw [mulPolys_length]
    omega
  have monic : (X ^ 2 ^ k - 1 : (ZMod modulus)[X]).Monic :=
    monic_X_pow_sub_C 1 (Nat.two_pow_pos k).ne'
  have size : (X ^ 2 ^ k - 1 : (ZMod modulus)[X]).degree = (2 ^ k : Nat) :=
    degree_X_pow_sub_C (Nat.two_pow_pos k) 1
  have whole : wrapped modulus (2 ^ k) a b = polyOf modulus (PolyDivision.mulPolys modulus a b) := by
    rw [wrapped, ← mulPolys_poly, modByMonic_eq_self_iff monic, size]
    exact polyOf_low short
  refine ⟨out, run, reduced_unique product.reduced (zeroPadded_reduced _ _) ?_ ?_⟩
  · rw [product.length, zeroPadded, List.length_append, List.length_map, List.length_replicate]
    omega
  · intro j inside
    rw [product.length] at inside
    rw [product.coefficients j inside, whole, polyOf_coeff, zeroPadded_residues]

/-- The product itself comes out where every coefficient is its own multiple. -/
theorem mulPolys_product_iff : (∃ out, mulPolys a b modulus root = .ok out ∧
    IsProduct modulus (2 ^ k) a b out) ↔ k = 0 ∨ wrapped modulus (2 ^ k) a b = 0 := by
  obtain ⟨out, run, length, reduced, values⟩ := mulPolys_scaled primitive canonical few few'
  constructor
  · rintro ⟨other, run', product⟩
    rw [run, Except.ok.injEq] at run'
    subst run'
    by_cases one : ((2 ^ k : Nat) : ZMod modulus) = 1
    · exact .inl ((Nat.pow_eq_one.mp (size_one primitive one)).resolve_left (by decide))
    · right
      ext j
      rw [coeff_zero]
      rcases Nat.lt_or_ge j (2 ^ k) with inside | beyond
      · have twice := (values j inside).symm.trans (product.coefficients j inside)
        have less : (((2 ^ k : Nat) : ZMod modulus) - 1) * (wrapped modulus (2 ^ k) a b).coeff j = 0 := by
          linear_combination twice
        exact (mul_eq_zero.mp less).resolve_left (sub_ne_zero.mpr one)
      · exact (degree_lt_iff_coeff_zero _ _).mp (wrapped_degree (Nat.two_pow_pos k) _) j beyond
  · intro condition
    refine ⟨out, run, length, reduced, fun j inside => ?_⟩
    rw [values j inside]
    rcases condition with rfl | zero
    · rw [pow_zero, Nat.cast_one, one_mul]
    · rw [zero, coeff_zero, mul_zero]

end Root

/- A root of order one that is not 1 itself: the loop of the powers turns once too
   often, and the domain has two points. -/

omit prime in
theorem fftRec_short {vals roots : List Int} (some : vals ≠ []) (short : vals.length ≤ 4)
    (enough : roots.length ≤ vals.length) (depth : Nat) :
    ∃ out, fftRec modulus (depth + 1) vals roots = .ok out ∧ out.length = roots.length := by
  rw [fftRec, if_neg some, if_pos short, simpleFt, if_neg (by omega)]
  exact ⟨_, rfl, by simp⟩

theorem expand_unreduced {root : Int} (one : (root : ZMod modulus) = 1) (other : root ≠ 1) :
    expandRootOfUnity root modulus = .ok [1, root, 1] := by
  have positive : NeZero modulus := ⟨prime.out.ne_zero⟩
  have next : root * root % modulus = 1 :=
    residue_one (mod_reduced _) (by rw [ZMod.intCast_mod, Int.cast_mul, one, mul_one])
  rw [expandRootOfUnity, powersUntilOne, if_neg other, next, powersUntilOne, if_pos rfl]
  rfl

theorem mulPolys_unreduced {root : Int} (one : (root : ZMod modulus) = 1) (other : root ≠ 1)
    {a b : List Int} (few : a.length ≤ 1) (few' : b.length ≤ 1) :
    ∃ out, mulPolys a b modulus root = .ok out ∧ out.length = 2 := by
  have expanded := expand_unreduced one other
  have fill {vals : List Int} (short : vals.length ≤ 1) : ∃ full : List Int,
      (if vals.length + 1 < 3 then vals ++ List.replicate (3 - vals.length - 1) 0 else vals) = full ∧
        full.length = 2 :=
    ⟨_, if_pos (by omega), by simp; omega⟩
  have transform {vals : List Int} (size : vals.length = 2) (roots : List Int)
      (count : roots.length = 2) :
      ∃ out, fftRec modulus (2 + 1) vals roots = .ok out ∧ out.length = 2 := by
    obtain ⟨out, run, length⟩ := @fftRec_short modulus vals roots
      (by intro none; simp [none] at size) (by omega) (by omega) 2
    exact ⟨out, run, length.trans count⟩
  obtain ⟨full, filled, size⟩ := fill few
  obtain ⟨full', filled', size'⟩ := fill few'
  obtain ⟨x1, run1, length1⟩ := transform size [1, root] rfl
  obtain ⟨x2, run2, length2⟩ := transform size' [1, root] rfl
  have paired : ((x1.zip x2).map fun v => v.1 * v.2 % (modulus : Int)).length = 2 := by
    simp [length1, length2]
  obtain ⟨out, run, length⟩ := transform paired [1, root] rfl
  have count : ([1, root, 1] : List Int).length = 3 := rfl
  have ahead : ([1, root, 1] : List Int).dropLast = [1, root] := rfl
  have back : ([1, root, 1] : List Int).tail.reverse = [1, root] := rfl
  refine ⟨out, ?_, length⟩
  simp only [mulPolys, expanded, bind, Except.bind, count, ahead, back, filled, filled', size, size',
    run1, run2, paired, run]

/-- For every root of an order that is a power of two. -/
theorem mulPolys_exact_iff {root : Int} {k : Nat} (order : orderOf (root : ZMod modulus) = 2 ^ k)
    {a b : List Int} (few : a.length ≤ 2 ^ k) (few' : b.length ≤ 2 ^ k) :
    (∃ out, mulPolys a b modulus root = .ok out ∧ IsProduct modulus (2 ^ k) a b out) ↔
      root = 1 ∨ (1 ≤ k ∧ (X ^ 2 ^ k - 1) ∣ polyOf modulus a * polyOf modulus b) := by
  have primitive := IsPrimitiveRoot.iff_orderOf.mpr order
  have monic : (X ^ 2 ^ k - 1 : (ZMod modulus)[X]).Monic :=
    monic_X_pow_sub_C 1 (Nat.two_pow_pos k).ne'
  have multiple : wrapped modulus (2 ^ k) a b = 0 ↔
      (X ^ 2 ^ k - 1) ∣ polyOf modulus a * polyOf modulus b := modByMonic_eq_zero_iff_dvd monic
  rw [← multiple]
  rcases Nat.eq_zero_or_pos k with rfl | more
  · have one : (root : ZMod modulus) = 1 := orderOf_eq_one_iff.mp order
    have none : ¬ 1 ≤ 0 := by decide
    simp only [none, false_and, or_false]
    constructor
    · rintro ⟨out, run, product⟩
      by_contra other
      obtain ⟨long, run', length⟩ := mulPolys_unreduced one other few few'
      rw [run, Except.ok.injEq] at run'
      have single := product.length
      rw [run', length] at single
      exact absurd single (by decide)
    · rintro rfl
      have large : (1 : Int) < modulus := by exact_mod_cast prime.out.one_lt
      have canonical : Canonical 1 modulus 0 := .inr ⟨by decide, large⟩
      exact (mulPolys_product_iff primitive canonical few few').mpr (.inl rfl)
  · rw [mulPolys_product_iff primitive (.inl more) few few']
    have apart : root ≠ 1 := by
      rintro rfl
      rw [Int.cast_one, orderOf_one] at order
      exact absurd order (Nat.one_lt_two_pow more.ne').ne
    have some : k ≠ 0 := more.ne'
    have least : 1 ≤ k := more
    simp only [some, apart, least, false_or, true_and]

theorem mulPolys_exact_sample :
    (∃ out, mulPolys [1, 2] [3] 17 9 = .ok out ∧ IsProduct 17 8 [1, 2] [3] out) ↔
      (9 : Int) = 1 ∨ (1 ≤ 3 ∧ (X ^ 8 - 1) ∣ polyOf 17 [1, 2] * polyOf 17 [3]) := by
  have prime : Fact (Nat.Prime 17) := ⟨by norm_num⟩
  exact mulPolys_exact_iff (k := 3) nine_order (by decide) (by decide)

/-- The product of 1 and 1 on the two points 1 and -1: it comes out as 2. -/
theorem one_doubled : orderOf ((16 : Int) : ZMod 17) = 2 ^ 1 ∧
    mulPolys [1] [1] 17 16 = .ok [2, 0] ∧ ¬ IsProduct 17 (2 ^ 1) [1] [1] [2, 0] := by
  have prime : Fact (Nat.Prime 17) := ⟨by norm_num⟩
  refine ⟨orderOf_eq_prime_pow (by decide) (by decide), by decide, fun product => ?_⟩
  have coefficient := product.coefficients 0 (by decide)
  have one : wrapped 17 (2 ^ 1) [1] [1] = 1 := by
    have whole : polyOf 17 [1] * polyOf 17 [1] = 1 := by
      simp [polyOf, CoefficientLists.poly_cons]
    have monic : (X ^ 2 ^ 1 - 1 : (ZMod 17)[X]).Monic := monic_X_pow_sub_C 1 (by decide)
    have size : (X ^ 2 ^ 1 - 1 : (ZMod 17)[X]).degree = (2 ^ 1 : Nat) := degree_X_pow_sub_C (by decide) 1
    rw [wrapped, whole, modByMonic_eq_self_iff monic, size, degree_one]
    decide
  rw [one, coeff_one_zero] at coefficient
  revert coefficient
  decide

end Field

end PolyProducts
