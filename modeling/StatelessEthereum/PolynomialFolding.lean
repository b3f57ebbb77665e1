import Mathlib.Algebra.Polynomial.Expand
import StatelessEthereum.EvaluationDomain

/- Polynomials split into their even and odd coefficients, and folded: the odd
   part is added to the even one with a challenge as the factor. -/
namespace PolynomialFolding
open Polynomial EvaluationDomain
variable {F : Type} [Field F]

noncomputable def evenPart (P : F[X]) : F[X] := contract 2 P

noncomputable def oddPart (P : F[X]) : F[X] := contract 2 P.divX

noncomputable def folded (P : F[X]) (alpha : F) : F[X] := evenPart P + C alpha * oddPart P

noncomputable def foldedBy (P : F[X]) (alphas : List F) : F[X] := alphas.foldl folded P

theorem evenPart_coeff (P : F[X]) (i : Nat) : (evenPart P).coeff i = P.coeff (i * 2) :=
  coeff_contract two_ne_zero P i

theorem oddPart_coeff (P : F[X]) (i : Nat) : (oddPart P).coeff i = P.coeff (i * 2 + 1) := by
  rw [oddPart, coeff_contract two_ne_zero, coeff_divX]

theorem folded_coeff (P : F[X]) (alpha : F) (i : Nat) :
    (folded P alpha).coeff i = P.coeff (i * 2) + alpha * P.coeff (i * 2 + 1) := by
  rw [folded, coeff_add, coeff_C_mul, evenPart_coeff, oddPart_coeff]

theorem parts (P : F[X]) : P = expand F 2 (evenPart P) + X * expand F 2 (oddPart P) := by
  ext i
  rw [coeff_add, coeff_expand two_pos]
  rcases Nat.even_or_odd' i with ⟨j, rfl | rfl⟩
  · have none : (X * expand F 2 (oddPart P)).coeff (2 * j) = 0 := by
      cases j with
      | zero => simp
      | succ j =>
        rw [show 2 * (j + 1) = 2 * j + 1 + 1 by ring, coeff_X_mul, coeff_expand two_pos,
          if_neg (by omega)]
    rw [none, add_zero, if_pos (Dvd.intro j rfl), Nat.mul_div_cancel_left j two_pos, evenPart_coeff,
      Nat.mul_comm]
  · rw [if_neg (by omega), zero_add, coeff_X_mul, coeff_expand two_pos, if_pos (Dvd.intro j rfl),
      Nat.mul_div_cancel_left j two_pos, oddPart_coeff, Nat.mul_comm]

theorem foldedBy_concat (P : F[X]) (alphas : List F) (alpha : F) :
    foldedBy P (alphas ++ [alpha]) = folded (foldedBy P alphas) alpha := by
  rw [foldedBy, List.foldl_append]
  rfl

theorem foldedBy_coeff {P : F[X]} {d : Nat} (low : ∀ i, d ≤ i → P.coeff i = 0) (alphas : List F) :
    ∀ i, d ≤ i * 2 ^ alphas.length → (foldedBy P alphas).coeff i = 0 := by
  induction alphas generalizing P d with
  | nil =>
    intro i high
    apply low
    simpa using high
  | cons alpha alphas ih =>
    intro i high
    have half : ∀ j, (d + 1) / 2 ≤ j → (folded P alpha).coeff j = 0 := by
      intro j above
      rw [folded_coeff, low (j * 2) (by omega), low (j * 2 + 1) (by omega), mul_zero, add_zero]
    apply ih half
    rw [List.length_cons, pow_succ, ← Nat.mul_assoc] at high
    omega

theorem foldedBy_degree {P : F[X]} {d : Nat} (low : P.degree < d) (alphas : List F) :
    (foldedBy P alphas).degree < ((d + 2 ^ alphas.length - 1) / 2 ^ alphas.length : Nat) := by
  have positive := Nat.two_pow_pos alphas.length
  rw [degree_lt_iff_coeff_zero] at low ⊢
  intro i high
  apply foldedBy_coeff low
  have scaled : d + 2 ^ alphas.length - 1 < (i + 1) * 2 ^ alphas.length :=
    (Nat.div_lt_iff_lt_mul positive).mp (Nat.lt_succ_of_le high)
  rw [Nat.succ_mul] at scaled
  omega

theorem opposite_values {w : F} {m : Nat} (half : w ^ m = -1) (E O : F[X]) (i : Nat) :
    (expand F 2 E + X * expand F 2 O).eval (w ^ i) =
        E.eval (w ^ (2 * i)) + w ^ i * O.eval (w ^ (2 * i)) ∧
      (expand F 2 E + X * expand F 2 O).eval (w ^ (i + m)) =
        E.eval (w ^ (2 * i)) - w ^ i * O.eval (w ^ (2 * i)) := by
  have square : (w ^ i) ^ 2 = w ^ (2 * i) := by rw [← pow_mul, Nat.mul_comm]
  have opposite : w ^ (i + m) = -w ^ i := by rw [pow_add, half, mul_neg_one]
  constructor
  · rw [eval_add, eval_mul, eval_X, expand_eval, expand_eval, square]
  · rw [opposite, eval_add, eval_mul, eval_X, expand_eval, expand_eval, neg_sq, square]
    ring

theorem expand_degree {P : F[X]} {m : Nat} :
    (expand F 2 P).degree < (2 * m : Nat) ↔ P.degree < m := by
  by_cases none : P = 0
  · rw [none, map_zero, degree_zero]
    exact iff_of_true (WithBot.bot_lt_coe _) (WithBot.bot_lt_coe _)
  · have spread : expand F 2 P ≠ 0 := (expand_ne_zero two_pos).mpr none
    rw [← natDegree_lt_iff_degree_lt none, ← natDegree_lt_iff_degree_lt spread, natDegree_expand]
    omega

/-- The transform of coefficients at the even places, with nothing between them. -/
theorem dft_expand {w : F} {m : Nat} {P : F[X]} (low : P.degree < m) {v : Nat → F}
    (even : ∀ j < m, v (2 * j) = P.coeff j) (odd : ∀ j < m, v (2 * j + 1) = 0) (i : Nat) :
    dft w (2 * m) v i = (expand F 2 P).eval (w ^ i) := by
  have none : dft (w ^ 2) m (fun j => v (2 * j + 1)) i = 0 := by
    apply Finset.sum_eq_zero
    intro j inside
    exact mul_eq_zero_of_left (odd j (Finset.mem_range.mp inside)) _
  have spread : (expand F 2 P).eval (w ^ i) =
      ∑ j ∈ Finset.range m, P.coeff j * (w ^ 2) ^ (i * j) := by
    by_cases zero : P = 0
    · simp [zero]
    · rw [expand_eval, eval_eq_sum_range' ((natDegree_lt_iff_degree_lt zero).mpr low)]
      apply Finset.sum_congr rfl
      intro j _
      rw [← pow_mul, ← pow_mul, ← pow_mul]
      congr 2
      ring
  rw [dft_split, none, mul_zero, add_zero, spread]
  apply Finset.sum_congr rfl
  intro j inside
  exact congrArg (· * _) (even j (Finset.mem_range.mp inside))

/-- When a polynomial in `X²` takes given values: they repeat after half the
    domain, and the polynomial through that half has the values of the other. -/
theorem expand_interp_iff {w : F} {m : Nat} (root : IsPrimitiveRoot w (2 * m)) {u v : Nat → F}
    (even : ∀ i < m, u (2 * i) = v i) :
    expand F 2 (interp w (2 * m) u) = interp w (2 * m) v ↔
      ∀ i < m, v (i + m) = v i ∧ (interp (w ^ 2) m v).eval (w ^ (2 * i + 1)) = u (2 * i + 1) := by
  have square (i : Nat) : (w ^ 2) ^ i = w ^ (2 * i) := (pow_mul w 2 i).symm
  have squared (P : F[X]) (i : Nat) : (expand F 2 P).eval (w ^ i) = P.eval (w ^ (2 * i)) := by
    rw [expand_eval, ← pow_mul, Nat.mul_comm]
  have turn (i : Nat) : w ^ (2 * (i + m)) = w ^ (2 * i) := by
    rw [Nat.mul_add, pow_add, root.pow_eq_one, mul_one]
  rcases Nat.eq_zero_or_pos m with rfl | some
  · simp [interp]
  have coarse : IsPrimitiveRoot (w ^ 2) m := root.pow (by omega) rfl
  constructor
  · intro same i inside
    have low : (interp w (2 * m) u).degree < m := by
      rw [← expand_degree, same]
      exact interp_degree root v
    have half : interp w (2 * m) u = interp (w ^ 2) m v := by
      apply eq_interp coarse low
      intro j within
      rw [square, interp_eval root (by omega), even j within]
    constructor
    · have above := congrArg (eval (w ^ (i + m))) same
      rw [squared, turn, interp_eval root (by omega), interp_eval root (by omega),
        even i inside] at above
      exact above.symm
    · rw [← half, interp_eval root (by omega)]
  · intro each
    have wide : (interp (w ^ 2) m v).degree < (2 * m : Nat) :=
      (interp_degree coarse v).trans_le (WithBot.coe_le_coe.mpr (show m ≤ 2 * m by omega))
    have half : interp (w ^ 2) m v = interp w (2 * m) u := by
      apply eq_interp root wide
      intro j within
      obtain ⟨i, rfl | rfl⟩ := Nat.even_or_odd' j
      · rw [← square, interp_eval coarse (by omega), even i (by omega)]
      · exact (each i (by omega)).2
    rw [← half]
    apply eq_interp root (expand_degree.mpr (interp_degree coarse v))
    intro j within
    rw [squared]
    by_cases low : j < m
    · rw [← square, interp_eval coarse low]
    · obtain ⟨i, rfl⟩ := Nat.exists_eq_add_of_le' (Nat.not_lt.mp low)
      have inside : i < m := by omega
      rw [turn, ← square, interp_eval coarse inside, (each i inside).1]

end PolynomialFolding
