import Mathlib.Algebra.Polynomial.Eval.Degree
import Mathlib.Algebra.Polynomial.Degree.Lemmas
import Mathlib.Algebra.BigOperators.Intervals
import Mathlib.LinearAlgebra.Lagrange

/- Polynomials as lists of their coefficients, the constant one first. A list may
   end in zeros, so its length bounds the degree. -/
namespace CoefficientLists
open Polynomial

section Ring
variable {R : Type} [CommRing R]

noncomputable def poly : List R → R[X]
  | [] => 0
  | c :: l => C c + X * poly l

@[simp] theorem poly_nil : poly ([] : List R) = 0 := rfl

theorem poly_cons (c : R) (l : List R) : poly (c :: l) = C c + X * poly l := rfl

theorem poly_coeff (l : List R) (j : Nat) : (poly l).coeff j = l.getD j 0 := by
  induction l generalizing j with
  | nil => simp
  | cons c l ih =>
    cases j with
    | zero => simp [poly_cons]
    | succ j => simp [poly_cons, ih]

theorem poly_coeff_beyond {l : List R} {j : Nat} (beyond : l.length ≤ j) : (poly l).coeff j = 0 := by
  rw [poly_coeff, List.getD_eq_getElem?_getD, List.getElem?_eq_none beyond, Option.getD_none]

theorem poly_degree (l : List R) : (poly l).degree < l.length :=
  (degree_lt_iff_coeff_zero _ _).mpr fun _ beyond => poly_coeff_beyond beyond

/-- Lists with the same entries, zeros behind them apart. -/
theorem poly_eq_iff {l l' : List R} : poly l = poly l' ↔ ∀ j, l.getD j 0 = l'.getD j 0 := by
  rw [Polynomial.ext_iff]
  simp only [poly_coeff]

theorem poly_append (l l' : List R) : poly (l ++ l') = poly l + X ^ l.length * poly l' := by
  induction l with
  | nil => simp
  | cons c l ih =>
    rw [List.cons_append, poly_cons, ih, poly_cons, List.length_cons]
    ring

@[simp] theorem poly_replicate (n : Nat) : poly (List.replicate n (0 : R)) = 0 := by
  induction n with
  | zero => rfl
  | succ n ih => rw [List.replicate_succ, poly_cons, ih, C_0, mul_zero, add_zero]

theorem poly_modify {l : List R} {i : Nat} (inside : i < l.length) (x : R) :
    poly (l.modify i fun c => c + x) = poly l + C x * X ^ i := by
  induction l generalizing i with
  | nil => simp at inside
  | cons c l ih =>
    cases i with
    | zero =>
      rw [List.modify_zero_cons, poly_cons, poly_cons, C_add, pow_zero]
      ring
    | succ i =>
      rw [List.modify_succ_cons, poly_cons, ih (by simpa using inside), poly_cons]
      ring

theorem poly_eval (l : List R) (x : R) : (poly l).eval x =
    ((List.range l.length).map fun j => l.getD j 0 * x ^ j).sum := by
  induction l with
  | nil => simp
  | cons c l ih =>
    have shift : ((List.range l.length).map fun j => l.getD j 0 * x ^ (j + 1)).sum =
        x * ((List.range l.length).map fun j => l.getD j 0 * x ^ j).sum := by
      rw [← List.sum_map_mul_left]
      congr 1
      apply List.map_congr_left
      intro j _
      ring
    rw [poly_cons, eval_add, eval_C, eval_mul, eval_X, ih, ← shift, List.length_cons,
      List.range_succ_eq_map, List.map_cons, List.sum_cons, List.map_map]
    simp [Function.comp_def]

/-- A polynomial whose coefficients from a place on vanish is the list of those
    before it. -/
theorem poly_take {l : List R} {n : Nat} (low : (poly l).degree < n) : poly (l.take n) = poly l := by
  rw [poly_eq_iff]
  intro j
  rcases Nat.lt_or_ge j n with inside | beyond
  · simp [List.getD_eq_getElem?_getD, inside]
  · rw [← poly_coeff l, (degree_lt_iff_coeff_zero _ _).mp low j beyond]
    simp [List.getD_eq_getElem?_getD, Nat.not_lt.mpr beyond]

end Ring

/- Interpolation. -/
section Field
variable {F : Type} [Field F] {n : Nat} {x : Nat → F}

def Distinct (n : Nat) (x : Nat → F) : Prop := Set.InjOn x (Finset.range n)

/-- Polynomials each of which vanishes at all of the first points but its own. -/
structure Numerators (n : Nat) (x : Nat → F) (nums : Nat → F[X]) : Prop where
  low : ∀ i < n, (nums i).degree < n
  others : ∀ i < n, ∀ j < n, j ≠ i → (nums i).eval (x j) = 0
  own : ∀ i < n, (nums i).eval (x i) ≠ 0

noncomputable def scaledSum (n : Nat) (x y : Nat → F) (nums : Nat → F[X]) : F[X] :=
  ∑ i ∈ Finset.range n, C (y i * ((nums i).eval (x i))⁻¹) * nums i

theorem scaledSum_eval {nums : Nat → F[X]} (numerators : Numerators n x nums) (y : Nat → F)
    {j : Nat} (inside : j < n) : (scaledSum n x y nums).eval (x j) = y j := by
  rw [scaledSum, eval_finsetSum, Finset.sum_eq_single j]
  · rw [eval_mul, eval_C, mul_assoc, inv_mul_cancel₀ (numerators.own j inside), mul_one]
  · intro i member other
    rw [eval_mul, numerators.others i (Finset.mem_range.mp member) j inside (Ne.symm other), mul_zero]
  · intro absent
    exact absurd (Finset.mem_range.mpr inside) absent

/-- The polynomial of a degree below the number of points is determined by its
    values at them. -/
theorem interpolant_unique (distinct : Distinct n x) {P Q : F[X]} (low : P.degree < n)
    (low' : Q.degree < n) (same : ∀ i < n, P.eval (x i) = Q.eval (x i)) : P = Q := by
  refine Polynomial.eq_of_degrees_lt_of_eval_index_eq (Finset.range n) distinct ?_ ?_
    fun i member => same i (Finset.mem_range.mp member)
  · rwa [Finset.card_range]
  · rwa [Finset.card_range]

theorem numerators_of_factors (distinct : Distinct n x) {nums : Nat → F[X]}
    (low : ∀ i < n, (nums i).degree < n)
    (factor : ∀ i < n, Lagrange.nodal (Finset.range n) x = (X - C (x i)) * nums i) :
    Numerators n x nums := by
  have others : ∀ i < n, ∀ j < n, j ≠ i → (nums i).eval (x j) = 0 := by
    intro i inside j inside' other
    have zero := Lagrange.eval_nodal_at_node (v := x) (Finset.mem_range.mpr inside')
    rw [factor i inside, eval_mul, eval_sub, eval_X, eval_C] at zero
    refine (mul_eq_zero.mp zero).resolve_left fun same => other ?_
    exact distinct (Finset.mem_coe.mpr (Finset.mem_range.mpr inside'))
      (Finset.mem_coe.mpr (Finset.mem_range.mpr inside)) (sub_eq_zero.mp same)
  refine ⟨low, others, fun i inside zero => Lagrange.nodal_ne_zero (s := Finset.range n) (v := x) ?_⟩
  -- vanishing at its own point too, it vanishes at more points than its degree allows
  have none : nums i = 0 := by
    refine interpolant_unique distinct (low i inside) (by simp) fun j inside' => ?_
    rw [eval_zero]
    rcases eq_or_ne j i with rfl | other
    · exact zero
    · exact others i inside j inside' other
  rw [factor i inside, none, mul_zero]

end Field

end CoefficientLists
