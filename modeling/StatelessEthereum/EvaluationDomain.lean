import Mathlib.LinearAlgebra.Lagrange
import Mathlib.RingTheory.RootsOfUnity.PrimitiveRoots
import Mathlib.Algebra.Field.GeomSum
import Mathlib.Tactic.FieldSimp
import Mathlib.Tactic.LinearCombination

/- Polynomials given by their values at the powers of a root of unity: the
   discrete Fourier transform, interpolation and exact division. -/
namespace EvaluationDomain
open Polynomial Finset
variable {F : Type} [Field F] {w : F} {n : Nat}

/- The transform. -/

def dft (w : F) (n : Nat) (v : Nat → F) (i : Nat) : F := ∑ j ∈ range n, v j * w ^ (i * j)

theorem dft_congr {v v' : Nat → F} (same : ∀ j < n, v j = v' j) (i : Nat) :
    dft w n v i = dft w n v' i :=
  sum_congr rfl fun j inside => by rw [same j (mem_range.mp inside)]

theorem sum_halves (m : Nat) (f : Nat → F) : ∑ j ∈ range (2 * m), f j =
    ∑ j ∈ range m, f (2 * j) + ∑ j ∈ range m, f (2 * j + 1) := by
  induction m with
  | zero => simp
  | succ m ih =>
    rw [show 2 * (m + 1) = 2 * m + 1 + 1 by ring, sum_range_succ, sum_range_succ, ih,
      sum_range_succ, sum_range_succ]
    ring

theorem dft_split (w : F) (m : Nat) (v : Nat → F) (i : Nat) : dft w (2 * m) v i =
    dft (w ^ 2) m (fun j => v (2 * j)) i + w ^ i * dft (w ^ 2) m (fun j => v (2 * j + 1)) i := by
  rw [dft, sum_halves, dft, dft, mul_sum]
  congr 1
  · apply sum_congr rfl
    intro j _
    rw [← pow_mul, show 2 * (i * j) = i * (2 * j) by ring]
  · apply sum_congr rfl
    intro j _
    rw [← pow_mul, show i * (2 * j + 1) = i + 2 * (i * j) by ring, pow_add]
    ring

theorem dft_period (whole : w ^ n = 1) (v : Nat → F) (i : Nat) :
    dft w n v (i + n) = dft w n v i := by
  apply sum_congr rfl
  intro j _
  rw [add_mul, pow_add, pow_mul w n j, whole, one_pow, mul_one]

theorem dft_upper {m : Nat} (half : w ^ m = -1) (v : Nat → F) (i : Nat) :
    dft w (2 * m) v (i + m) =
      dft (w ^ 2) m (fun j => v (2 * j)) i - w ^ i * dft (w ^ 2) m (fun j => v (2 * j + 1)) i := by
  have whole : (w ^ 2) ^ m = 1 := by rw [← pow_mul, mul_comm, pow_mul, half]; ring
  rw [dft_split, dft_period whole, dft_period whole, pow_add, half]
  ring

theorem half_turn {m : Nat} (root : IsPrimitiveRoot w (2 * m)) (some : 0 < m) : w ^ m = -1 :=
  IsPrimitiveRoot.eq_neg_one_of_two_right
    (root.pow (by omega) (by ring))

/- Interpolation. -/

/-- The polynomial of lowest degree with these values on the domain. -/
noncomputable def interp (w : F) (n : Nat) (v : Nat → F) : F[X] :=
  Lagrange.interpolate (range n) (fun i => w ^ i) v

section Root
variable (root : IsPrimitiveRoot w n)
include root

theorem nodes_injective : Set.InjOn (fun i => w ^ i) (range n : Set Nat) := root.injOn_pow

theorem interp_eval {i : Nat} (inside : i < n) (v : Nat → F) :
    (interp w n v).eval (w ^ i) = v i :=
  Lagrange.eval_interpolate_at_node v (nodes_injective root) (mem_range.mpr inside)

theorem interp_degree (v : Nat → F) : (interp w n v).degree < n := by
  have bound := Lagrange.degree_interpolate_lt v (nodes_injective root)
  rwa [card_range] at bound

theorem eq_interp {f : F[X]} {v : Nat → F} (low : f.degree < n)
    (values : ∀ i < n, f.eval (w ^ i) = v i) : f = interp w n v :=
  Lagrange.eq_interpolate_of_eval_eq v (nodes_injective root) (by rwa [card_range])
    fun i inside => values i (mem_range.mp inside)

theorem interp_congr {v v' : Nat → F} (same : ∀ i < n, v i = v' i) :
    interp w n v = interp w n v' :=
  eq_interp root (interp_degree root v) fun i inside => by rw [interp_eval root inside, same i inside]

theorem interp_add (v v' : Nat → F) :
    interp w n (fun i => v i + v' i) = interp w n v + interp w n v' :=
  (eq_interp root
    ((degree_add_le _ _).trans_lt (max_lt (interp_degree root v) (interp_degree root v')))
    fun i inside => by rw [eval_add, interp_eval root inside, interp_eval root inside]).symm

theorem interp_scale (c : F) (v : Nat → F) :
    interp w n (fun i => c * v i) = C c * interp w n v := by
  symm
  apply eq_interp root
  · by_cases none : c = 0
    · rw [none, C_0, zero_mul, degree_zero]
      exact WithBot.bot_lt_coe _
    · rw [degree_C_mul none]
      exact interp_degree root v
  · intro i inside
    rw [eval_mul, eval_C, interp_eval root inside]

/-- The powers of a power of the root add up to nothing, but for the zeroth. -/
theorem orthogonal {i l : Nat} (inside : i < n) (inside' : l < n) :
    ∑ j ∈ range n, (w ^ l * w⁻¹ ^ i) ^ j = if i = l then (n : F) else 0 := by
  have unit : w ≠ 0 := root.ne_zero (by omega)
  split
  · rename_i same
    subst same
    have one : w ^ i * w⁻¹ ^ i = 1 := by rw [← mul_pow, mul_inv_cancel₀ unit, one_pow]
    simp only [one, one_pow, sum_const, card_range, nsmul_eq_mul, mul_one]
  · rename_i other
    have turn : (w ^ l * w⁻¹ ^ i) ^ n = 1 := by
      rw [mul_pow, ← pow_mul, ← pow_mul, mul_comm l, mul_comm i, pow_mul, pow_mul, inv_pow,
        root.pow_eq_one]
      simp
    have moved : w ^ l * w⁻¹ ^ i ≠ 1 := by
      intro same
      have equal : w ^ l = w ^ i := by
        have scaled := congrArg (· * w ^ i) same
        simp only [one_mul, mul_assoc, ← mul_pow, inv_mul_cancel₀ unit, one_pow, mul_one] at scaled
        exact scaled
      exact other (root.pow_inj inside' inside equal).symm
    rw [geom_sum_eq moved, turn, sub_self, zero_div]

theorem order_unit (some : 0 < n) : (n : F) ≠ 0 := by
  have positive : NeZero n := ⟨by omega⟩
  exact root.neZero'.out

omit root in
theorem coefficients_degree (c : Nat → F) :
    (∑ j ∈ range n, C (c j) * X ^ j : F[X]).degree < (n : WithBot Nat) := by
  rw [← mem_degreeLT]
  apply Submodule.sum_mem
  intro j inside
  rw [mem_degreeLT]
  exact (degree_C_mul_X_pow_le _ _).trans_lt (WithBot.coe_lt_coe.mpr (mem_range.mp inside))

theorem interp_inverse (v : Nat → F) :
    interp w n v = ∑ j ∈ range n, C ((n : F)⁻¹ * dft w⁻¹ n v j) * X ^ j := by
  symm
  apply eq_interp root
  · exact coefficients_degree _
  · intro l inside
    have order := order_unit root (by omega)
    simp only [eval_finsetSum, eval_mul, eval_C, eval_pow, eval_X, dft, mul_sum, sum_mul]
    rw [sum_comm]
    have inner (i : Nat) (member : i ∈ range n) :
        ∑ j ∈ range n, (n : F)⁻¹ * (v i * w⁻¹ ^ (j * i)) * (w ^ l) ^ j =
          if i = l then v i else 0 := by
      have gathered : ∑ j ∈ range n, (n : F)⁻¹ * (v i * w⁻¹ ^ (j * i)) * (w ^ l) ^ j =
          (n : F)⁻¹ * v i * ∑ j ∈ range n, (w ^ l * w⁻¹ ^ i) ^ j := by
        rw [mul_sum]
        apply sum_congr rfl
        intro j _
        rw [mul_pow, ← pow_mul w⁻¹ i j, mul_comm i j]
        ring
      rw [gathered, orthogonal root (mem_range.mp member) inside]
      split
      · field_simp
      · ring
    rw [sum_congr rfl inner]
    simp [inside]

theorem interp_coeff (v : Nat → F) {j : Nat} (inside : j < n) :
    (interp w n v).coeff j = (n : F)⁻¹ * dft w⁻¹ n v j := by
  rw [interp_inverse root v, finsetSum_coeff]
  simp only [coeff_C_mul_X_pow]
  simp [inside]

/-- The transform of a vector interpolates back to the vector. -/
theorem interp_dft (v : Nat → F) {j : Nat} (inside : j < n) :
    (interp w n (dft w n v)).coeff j = v j := by
  have known : ∑ l ∈ range n, C (v l) * X ^ l = interp w n (dft w n v) := by
    apply eq_interp root (coefficients_degree v)
    intro i _
    simp only [eval_finsetSum, eval_mul, eval_C, eval_pow, eval_X, dft, pow_mul]
  rw [← known, finsetSum_coeff]
  simp only [coeff_C_mul_X_pow]
  simp [inside]

/-- Coefficients transform back to the values they interpolate. -/
theorem dft_interp (v : Nat → F) {i : Nat} (inside : i < n) :
    dft w n (interp w n v).coeff i = v i := by
  rw [← interp_eval root inside v, interp_inverse root v]
  simp only [eval_finsetSum, eval_mul, eval_C, eval_pow, eval_X]
  rw [← interp_inverse root v, dft]
  apply sum_congr rfl
  intro j within
  rw [interp_coeff root v (mem_range.mp within), ← pow_mul]

/- The polynomial that vanishes on the whole domain, and on all of it but one point. -/

theorem nodal_eq (some : 0 < n) : Lagrange.nodal (range n) (fun i => w ^ i) = X ^ n - 1 := by
  have monic : (X ^ n - 1 : F[X]).Monic := monic_X_pow_sub_C 1 (by omega)
  refine Polynomial.eq_of_degree_le_of_eval_index_eq (range n) (nodes_injective root) ?_ ?_ ?_ ?_
  · rw [Lagrange.degree_nodal]
  · rw [Lagrange.degree_nodal, card_range]
    exact (degree_X_pow_sub_C some 1).symm
  · rw [Lagrange.nodal_monic.leadingCoeff, monic.leadingCoeff]
  · intro i inside
    rw [Lagrange.eval_nodal_at_node inside]
    simp only [eval_sub, eval_pow, eval_X, eval_one]
    rw [← pow_mul, mul_comm, pow_mul, root.pow_eq_one, one_pow, sub_self]

end Root

/-- The monic polynomial that vanishes on the domain but at one point. -/
noncomputable def cofactor (w : F) (n i : Nat) : F[X] :=
  Lagrange.nodal ((range n).erase i) (fun j => w ^ j)

section Division
variable (root : IsPrimitiveRoot w n)
include root

theorem cofactor_mul {i : Nat} (inside : i < n) :
    (X - C (w ^ i)) * cofactor w n i = X ^ n - 1 := by
  rw [← nodal_eq root (by omega), cofactor]
  exact (Lagrange.nodal_eq_mul_nodal_erase (mem_range.mpr inside)).symm

omit root in
theorem cofactor_other {i j : Nat} (inside : j < n) (other : j ≠ i) :
    (cofactor w n i).eval (w ^ j) = 0 :=
  Lagrange.eval_nodal_at_node (v := fun j => w ^ j) (mem_erase.mpr ⟨other, mem_range.mpr inside⟩)

theorem cofactor_self {i : Nat} (inside : i < n) :
    (cofactor w n i).eval (w ^ i) = n * w⁻¹ ^ i := by
  have unit : w ≠ 0 := root.ne_zero (by omega)
  have slope : (derivative (Lagrange.nodal (range n) (fun j => w ^ j))).eval (w ^ i) =
      (cofactor w n i).eval (w ^ i) :=
    Lagrange.eval_nodal_derivative_eval_node_eq (v := fun j => w ^ j) (mem_range.mpr inside)
  rw [← slope, nodal_eq root (by omega)]
  simp only [derivative_sub, derivative_X_pow, derivative_one, sub_zero, eval_mul, eval_pow,
    eval_X, eval_natCast, map_natCast]
  obtain ⟨m, rfl⟩ : ∃ m, n = m + 1 := ⟨n - 1, by omega⟩
  have turn : (w ^ i) ^ m * w ^ i = 1 := by
    rw [← pow_succ, ← pow_mul, mul_comm, pow_mul, root.pow_eq_one, one_pow]
  rw [inv_pow, Nat.add_sub_cancel, eq_inv_of_mul_eq_one_left turn]

/-- The polynomial that is one at a point of the domain and zero at the others. -/
theorem interp_single {i : Nat} (inside : i < n) :
    interp w n (Pi.single i 1) = C ((n : F)⁻¹ * w ^ i) * cofactor w n i := by
  have unit : w ≠ 0 := root.ne_zero (by omega)
  have order := order_unit root (by omega)
  symm
  apply eq_interp root
  · have power : (n : F)⁻¹ * w ^ i ≠ 0 := mul_ne_zero (inv_ne_zero order) (pow_ne_zero i unit)
    rw [degree_C_mul power, cofactor, Lagrange.degree_nodal,
      card_erase_of_mem (mem_range.mpr inside), card_range]
    have less : n - 1 < n := by omega
    exact WithBot.coe_lt_coe.mpr less
  · intro j within
    rw [eval_mul, eval_C]
    by_cases same : j = i
    · subst same
      rw [cofactor_self root within, Pi.single_eq_same, inv_pow]
      have power : w ^ j ≠ 0 := pow_ne_zero j unit
      field_simp
    · rw [cofactor_other within same, Pi.single_eq_of_ne same, mul_zero]

theorem interp_lagrange (v : Nat → F) :
    interp w n v = ∑ i ∈ range n, C (v i) * interp w n (Pi.single i 1) := by
  symm
  apply eq_interp root
  · rw [← mem_degreeLT]
    apply Submodule.sum_mem
    intro i _
    rw [mem_degreeLT, ← interp_scale root]
    exact interp_degree root _
  · intro j within
    simp only [eval_finsetSum, eval_mul, eval_C, interp_eval root within]
    rw [sum_eq_single j]
    · rw [Pi.single_eq_same, mul_one]
    · intro i _ other
      rw [Pi.single_eq_of_ne (Ne.symm other), mul_zero]
    · intro outside
      exact absurd (mem_range.mpr within) outside

theorem interp_single_top {i : Nat} (inside : i < n) :
    (interp w n (Pi.single i 1)).coeff (n - 1) = (n : F)⁻¹ * w ^ i := by
  have unit : w ≠ 0 := root.ne_zero (by omega)
  rw [interp_coeff root _ (by omega), dft, sum_eq_single i]
  · rw [Pi.single_eq_same, one_mul, inv_pow]
    congr 1
    have turn : w ^ i * w ^ ((n - 1) * i) = 1 := by
      rw [← pow_add, show i + (n - 1) * i = n * i by
        obtain ⟨m, rfl⟩ : ∃ m, n = m + 1 := ⟨n - 1, by omega⟩
        rw [Nat.add_sub_cancel]; ring, pow_mul, root.pow_eq_one, one_pow]
    exact (eq_inv_of_mul_eq_one_left turn).symm
  · intro j _ other
    rw [Pi.single_eq_of_ne other, zero_mul]
  · intro outside
    exact absurd (mem_range.mpr inside) outside

/-- Exact division by `X - wⁱ`: values off the point by division, and the one at
    it so that no term of the top degree is left. -/
theorem interp_quotient {i : Nat} (inside : i < n) {v q : Nat → F}
    (off : ∀ j < n, j ≠ i → q j * (w ^ j - w ^ i) = v j - v i)
    (top : ∑ j ∈ range n, q j * w ^ j = 0) :
    interp w n v - C (v i) = (X - C (w ^ i)) * interp w n q := by
  have unit : w ≠ 0 := root.ne_zero (by omega)
  obtain ⟨m, rfl⟩ : ∃ m, n = m + 1 := ⟨n - 1, by omega⟩
  have flat : (interp w (m + 1) q).coeff m = 0 := by
    have turned : dft w⁻¹ (m + 1) q m = ∑ j ∈ range (m + 1), q j * w ^ j := by
      apply sum_congr rfl
      intro j _
      have turn : w ^ j * w ^ (m * j) = 1 := by
        rw [← pow_add, show j + m * j = (m + 1) * j by ring, pow_mul, root.pow_eq_one, one_pow]
      rw [inv_pow, eq_inv_of_mul_eq_one_left turn]
    rw [interp_coeff root _ (by omega), turned, top, mul_zero]
  have low : (interp w (m + 1) q).degree < m := by
    rw [degree_lt_iff_coeff_zero]
    intro k above
    rcases Nat.eq_or_lt_of_le above with same | beyond
    · rw [← same, flat]
    · exact coeff_eq_zero_of_degree_lt
        ((interp_degree root q).trans_le (WithBot.coe_le_coe.mpr beyond))
  have product : C (v i) + (X - C (w ^ i)) * interp w (m + 1) q = interp w (m + 1) v := by
    apply eq_interp root
    · refine (degree_add_le _ _).trans_lt (max_lt ?_ ?_)
      · exact degree_C_le.trans_lt (WithBot.coe_lt_coe.mpr (Nat.succ_pos m))
      · by_cases none : interp w (m + 1) q = 0
        · rw [none, mul_zero, degree_zero]
          exact WithBot.bot_lt_coe _
        · rw [degree_mul, degree_X_sub_C, degree_eq_natDegree none]
          have below := (natDegree_lt_iff_degree_lt none).mpr low
          exact_mod_cast (by omega : 1 + (interp w (m + 1) q).natDegree < m + 1)
    · intro j within
      simp only [eval_add, eval_mul, eval_sub, eval_X, eval_C, interp_eval root within]
      by_cases same : j = i
      · subst same; ring
      · linear_combination off j within same
  rw [← product]
  ring

/-- The opening of a polynomial at a point of the domain, on the whole domain. -/
theorem opening {i : Nat} (inside : i < n) {v q : Nat → F}
    (off : ∀ j < n, j ≠ i → q j * (w ^ j - w ^ i) = v j - v i)
    (top : ∑ j ∈ range n, q j * w ^ j = 0) :
    (interp w n v - C (v i)) * cofactor w n i = (X ^ n - 1) * interp w n q := by
  rw [interp_quotient root inside off top, ← cofactor_mul root inside]
  ring

end Division

/- Products of polynomials, wrapped around at the size of the domain. -/

theorem eval_wrapped (whole : w ^ n = 1) (P : F[X]) (i : Nat) :
    (P %ₘ (X ^ n - 1)).eval (w ^ i) = P.eval (w ^ i) := by
  have turn : (X ^ n - 1 : F[X]).eval (w ^ i) = 0 := by
    rw [eval_sub, eval_pow, eval_X, eval_one, ← pow_mul, mul_comm, pow_mul, whole, one_pow, sub_self]
  conv => rhs; rw [← modByMonic_add_div P (X ^ n - 1)]
  rw [eval_add, eval_mul, turn, zero_mul, add_zero]

theorem wrapped_degree (some : 0 < n) (P : F[X]) : (P %ₘ (X ^ n - 1)).degree < n := by
  have monic : (X ^ n - 1 : F[X]).Monic := monic_X_pow_sub_C 1 (by omega)
  have low := degree_modByMonic_lt P monic
  have size : (X ^ n - 1 : F[X]).degree = n := degree_X_pow_sub_C some 1
  rwa [size] at low

theorem dft_coeff (w : F) {P : F[X]} (low : P.degree < n) (i : Nat) :
    dft w n P.coeff i = P.eval (w ^ i) := by
  by_cases none : P = 0
  · simp [none, dft]
  · have bound := (natDegree_lt_iff_degree_lt none).mpr low
    rw [dft, eval_eq_sum_range' bound]
    apply sum_congr rfl
    intro j _
    rw [← pow_mul]

theorem dft_product (some : 0 < n) (whole : w ^ n = 1) {P Q : F[X]} (low : P.degree < n)
    (low' : Q.degree < n) (i : Nat) :
    dft w n P.coeff i * dft w n Q.coeff i = dft w n ((P * Q) %ₘ (X ^ n - 1)).coeff i := by
  rw [dft_coeff w low, dft_coeff w low', dft_coeff w (wrapped_degree some _), eval_wrapped whole,
    eval_mul]

/-- The transform at the inverse root undoes the one at the root but for the size. -/
theorem dft_reversed (root : IsPrimitiveRoot w n) (v : Nat → F) {j : Nat} (inside : j < n) :
    dft w⁻¹ n (dft w n v) j = n * v j := by
  have order := order_unit root (by omega)
  rw [← interp_dft root v inside, interp_coeff root _ inside, mul_inv_cancel_left₀ order]

/- The even and the odd part of a polynomial in evaluation form. -/

theorem interp_squared {m : Nat} (root : IsPrimitiveRoot w m) (some : 0 < m) (v : Nat → F) :
    ((interp w m v).comp (X ^ 2)).natDegree < 2 * m - 1 := by
  have low : (interp w m v).natDegree < m := by
    by_cases none : interp w m v = 0
    · simpa [none] using some
    · exact (natDegree_lt_iff_degree_lt none).mpr (interp_degree root v)
  rw [natDegree_comp, natDegree_X_pow]
  omega

/-- The values at half the domain and at the other half give the even and the odd part. -/
theorem interp_halves {m : Nat} (root : IsPrimitiveRoot w (2 * m)) (some : 0 < m) (v : Nat → F) :
    interp w (2 * m) v =
      (interp (w ^ 2) m fun i => (v i + v (m + i)) / 2).comp (X ^ 2) +
        X * (interp (w ^ 2) m fun i => (v i - v (m + i)) / 2 * w⁻¹ ^ i).comp (X ^ 2) := by
  have square : IsPrimitiveRoot (w ^ 2) m := root.pow (by omega) rfl
  have unit : w ≠ 0 := root.ne_zero (by omega)
  have two : (2 : F) ≠ 0 := by
    have order := order_unit root (by omega)
    rw [Nat.cast_mul, Nat.cast_two] at order
    exact left_ne_zero_of_mul order
  have turn (i : Nat) : w ^ i * w⁻¹ ^ i = 1 := by rw [← mul_pow, mul_inv_cancel₀ unit, one_pow]
  symm
  apply eq_interp root
  · refine degree_le_natDegree.trans_lt (Nat.cast_lt.mpr ?_)
    refine (natDegree_add_le _ _).trans_lt (max_lt ?_ ?_)
    · exact (interp_squared square some _).trans (by omega)
    · have odd := interp_squared square some fun i => (v i - v (m + i)) / 2 * w⁻¹ ^ i
      exact natDegree_mul_le.trans_lt (by rw [natDegree_X]; omega)
  · intro i inside
    simp only [eval_add, eval_mul, eval_X, eval_comp, eval_pow]
    rcases Nat.lt_or_ge i m with lower | upper
    · rw [pow_right_comm, interp_eval square lower, interp_eval square lower]
      linear_combination (v i - v (m + i)) / 2 * turn i + v i * div_self two
    · obtain ⟨j, rfl⟩ := Nat.exists_eq_add_of_le upper
      have opposite : w ^ (m + j) = - w ^ j := by rw [pow_add, half_turn root some, neg_one_mul]
      have place : j < m := by omega
      rw [opposite, neg_sq, pow_right_comm, interp_eval square place, interp_eval square place]
      linear_combination (v (m + j) - v j) / 2 * turn j + v (m + j) * div_self two

theorem interp_half_eval {m : Nat} (root : IsPrimitiveRoot w (2 * m)) (some : 0 < m) (v : Nat → F)
    (x : F) : (interp w (2 * m) v).eval x =
      (interp (w ^ 2) m fun i => (v i - v (m + i)) / 2 * x * w⁻¹ ^ i + (v i + v (m + i)) / 2).eval
        (x ^ 2) := by
  have square : IsPrimitiveRoot (w ^ 2) m := root.pow (by omega) rfl
  have scaled : (fun i => (v i - v (m + i)) / 2 * x * w⁻¹ ^ i + (v i + v (m + i)) / 2) =
      fun i => x * ((v i - v (m + i)) / 2 * w⁻¹ ^ i) + (v i + v (m + i)) / 2 := by
    funext i
    ring
  rw [interp_halves root some, scaled, interp_add square, interp_scale square]
  simp only [eval_add, eval_mul, eval_X, eval_C, eval_comp, eval_pow]
  ring

end EvaluationDomain
