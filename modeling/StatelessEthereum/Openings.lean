import StatelessEthereum.EvaluationDomain

/- Claimed values of polynomials at points of the domain, folded into one
   polynomial. What it takes for a witness to exist, and what that tells about
   the single claims. -/
namespace Openings
open Polynomial Finset EvaluationDomain

/-- A polynomial, known by its value in `A`, is to have a value at a point. -/
structure Opening (F A : Type) where
  factor : F
  value : A
  index : Nat
  leaf : F

variable {F A B : Type} [Field F] [CommRing A] [Algebra F A] [CommRing B] [Algebra F B] {w : F}
  {n : Nat}

section Terms

noncomputable def Opening.term (w : F) (n : Nat) (s : A) (o : Opening F A) : A :=
  algebraMap F A o.factor * ((o.value - algebraMap F A o.leaf) * aeval s (cofactor w n o.index))

noncomputable def total (w : F) (n : Nat) (s : A) (os : List (Opening F A)) : A :=
  (os.map (Opening.term w n s)).sum

@[simp] theorem total_nil (s : A) : total w n s ([] : List (Opening F A)) = 0 := rfl

@[simp] theorem total_cons (s : A) (o : Opening F A) (os : List (Opening F A)) :
    total w n s (o :: os) = o.term w n s + total w n s os := by
  simp [total]

theorem total_append (s : A) (os more : List (Opening F A)) :
    total w n s (os ++ more) = total w n s os + total w n s more := by
  simp [total]

def Opening.map (φ : A → B) (o : Opening F A) : Opening F B :=
  ⟨o.factor, φ o.value, o.index, o.leaf⟩

theorem total_at (s : A) (os : List (Opening F F[X])) :
    total w n s (os.map (Opening.map (aeval s))) = aeval s (total w n X os) := by
  induction os with
  | nil => simp
  | cons o os ih =>
    have here : (o.map (aeval s)).term w n s = aeval s (o.term w n X) := by
      simp [Opening.term, Opening.map]
    rw [List.map_cons, total_cons, total_cons, map_add, ih, here]

theorem term_moved (s : A) (o : Opening F A) (leaf : F) : o.term w n s =
    ({ o with leaf := leaf } : Opening F A).term w n s +
      algebraMap F A (o.factor * (leaf - o.leaf)) * aeval s (cofactor w n o.index) := by
  simp only [Opening.term, map_mul, map_sub]
  ring

end Terms

/- True openings. -/

/-- What an interpolation polynomial has at a point of the domain. -/
noncomputable def trueOpening (w : F) (n : Nat) (factor : F) (v : Nat → F) (index : Nat) :
    Opening F F[X] :=
  ⟨factor, interp w n v, index, v index⟩

theorem trueOpening_term (root : IsPrimitiveRoot w n) (factor : F) {index : Nat}
    (inside : index < n) {v q : Nat → F}
    (off : ∀ j < n, j ≠ index → q j * (w ^ j - w ^ index) = v j - v index)
    (top : ∑ j ∈ range n, q j * w ^ j = 0) :
    (trueOpening w n factor v index).term w n X = (X ^ n - 1) * (C factor * interp w n q) := by
  have divides := opening root inside off top
  simp only [Opening.term, trueOpening, aeval_X_left_apply, algebraMap_eq]
  rw [divides]
  ring

/- False openings. -/

/-- How far a polynomial is off its claimed value, weighted. -/
noncomputable def Opening.error (w : F) (o : Opening F F[X]) : F :=
  o.factor * (o.value.eval (w ^ o.index) - o.leaf)

noncomputable def errorAt (w : F) (os : List (Opening F F[X])) (i : Nat) : F :=
  ((os.filter fun o => o.index = i).map (Opening.error w)).sum

section Cancel

theorem errorAt_nil (w : F) (i : Nat) : errorAt w [] i = 0 := rfl

theorem errorAt_cons (w : F) (o : Opening F F[X]) (os : List (Opening F F[X])) (i : Nat) :
    errorAt w (o :: os) i = (if o.index = i then o.error w else 0) + errorAt w os i := by
  by_cases here : o.index = i <;> simp [errorAt, here]

theorem errorAt_absent {os : List (Opening F F[X])} {i : Nat} (absent : i ∉ os.map Opening.index) :
    errorAt w os i = 0 := by
  have none : (os.filter fun o => o.index = i) = [] := by
    rw [List.filter_eq_nil_iff]
    intro o member here
    exact absent (decide_eq_true_iff.mp here ▸ List.mem_map_of_mem member)
  rw [errorAt, none]
  rfl

/-- Openings at different points cannot make up for each other. -/
theorem errors_apart (os : List (Opening F F[X])) (apart : (os.map Opening.index).Nodup)
    (inside : ∀ o ∈ os, o.index < n) (unit : ∀ o ∈ os, o.factor ≠ 0) :
    (∀ i < n, errorAt w os i = 0) ↔ ∀ o ∈ os, o.value.eval (w ^ o.index) = o.leaf := by
  induction os with
  | nil => simp [errorAt_nil]
  | cons o os ih =>
    rw [List.map_cons, List.nodup_cons] at apart
    obtain ⟨fresh, apart⟩ := apart
    have rest := ih apart (fun o member => inside o (List.mem_cons_of_mem _ member))
      fun o member => unit o (List.mem_cons_of_mem _ member)
    have here : o.error w = 0 ↔ o.value.eval (w ^ o.index) = o.leaf := by
      rw [Opening.error, mul_eq_zero, sub_eq_zero]
      exact or_iff_right (unit o List.mem_cons_self)
    rw [List.forall_mem_cons, ← rest, ← here]
    constructor
    · intro cancel
      have own := cancel o.index (inside o List.mem_cons_self)
      rw [errorAt_cons, if_pos rfl, errorAt_absent fresh, add_zero] at own
      refine ⟨own, fun i within => ?_⟩
      have at_i := cancel i within
      rw [errorAt_cons, own, ite_self, zero_add] at at_i
      exact at_i
    · intro ⟨own, cancel⟩ i within
      rw [errorAt_cons, own, ite_self, zero_add, cancel i within]

/-- At a point of the domain all terms vanish but those of its own openings. -/
theorem total_eval {os : List (Opening F F[X])} (inside : ∀ o ∈ os, o.index < n) {i : Nat}
    (within : i < n) :
    (total w n X os).eval (w ^ i) = errorAt w os i * (cofactor w n i).eval (w ^ i) := by
  induction os with
  | nil => simp [errorAt_nil]
  | cons o os ih =>
    have rest := ih fun o member => inside o (List.mem_cons_of_mem _ member)
    have here : (o.term w n X).eval (w ^ i) =
        (if o.index = i then o.error w else 0) * (cofactor w n i).eval (w ^ i) := by
      simp only [Opening.term, Opening.error, aeval_X_left_apply, algebraMap_eq, eval_mul, eval_C,
        eval_sub]
      by_cases same : o.index = i
      · simp only [same, ↓reduceIte]
        ring
      · rw [if_neg same, cofactor_other within (Ne.symm same)]
        ring
    rw [total_cons, eval_add, here, rest, errorAt_cons]
    ring

section Root
variable (root : IsPrimitiveRoot w n)
include root

theorem cofactor_self_unit {i : Nat} (inside : i < n) : (cofactor w n i).eval (w ^ i) ≠ 0 := by
  rw [cofactor_self root inside]
  exact mul_ne_zero (order_unit root (by omega))
    (pow_ne_zero i (inv_ne_zero (root.ne_zero (by omega))))

theorem vanishing_eval (i : Nat) : (X ^ n - 1 : F[X]).eval (w ^ i) = 0 := by
  simp only [eval_sub, eval_pow, eval_X, eval_one]
  rw [← pow_mul, mul_comm, pow_mul, root.pow_eq_one, one_pow, sub_self]

/-- What is zero on the whole domain is a multiple of its polynomial. -/
theorem vanishing_divides (some : 0 < n) {p : F[X]} (zero : ∀ i < n, p.eval (w ^ i) = 0) :
    X ^ n - 1 ∣ p := by
  have monic : (X ^ n - 1 : F[X]).Monic := monic_X_pow_sub_C 1 (by omega)
  have size : (X ^ n - 1 : F[X]).degree = n := degree_X_pow_sub_C some 1
  rw [← modByMonic_eq_zero_iff_dvd monic]
  apply eq_zero_of_degree_lt_of_eval_index_eq_zero (range n) (nodes_injective root)
  · rw [card_range, ← size]
    exact degree_modByMonic_lt p monic
  · intro i member
    have split := modByMonic_add_div p (X ^ n - 1)
    have value := congrArg (Polynomial.eval (w ^ i)) split
    rw [eval_add, eval_mul, vanishing_eval root, zero_mul, add_zero,
      zero i (mem_range.mp member)] at value
    exact value

omit root in
theorem cofactor_degree {i : Nat} (inside : i < n) : (cofactor w n i).degree < n := by
  rw [cofactor, Lagrange.degree_nodal, card_erase_of_mem (mem_range.mpr inside), card_range]
  exact WithBot.coe_lt_coe.mpr (show n - 1 < n by omega)

omit root in
theorem term_degree {o : Opening F F[X]} (inside : o.index < n) (low : o.value.degree < n) :
    (o.term w n X).degree < (n + n : Nat) := by
  have below : (o.value - C o.leaf).degree < n := by
    apply (degree_sub_le _ _).trans_lt
    apply max_lt low
    exact degree_C_le.trans_lt (WithBot.coe_lt_coe.mpr (show 0 < n by omega))
  simp only [Opening.term, aeval_X_left_apply, algebraMap_eq]
  by_cases none : (o.value - C o.leaf) * cofactor w n o.index = 0
  · rw [none, mul_zero, degree_zero]
    exact WithBot.bot_lt_coe _
  · have bound := cofactor_degree (w := w) inside
    rw [mul_eq_zero, not_or] at none
    have first := (natDegree_lt_iff_degree_lt none.1).mpr below
    have second := (natDegree_lt_iff_degree_lt none.2).mpr bound
    calc (C o.factor * ((o.value - C o.leaf) * cofactor w n o.index)).degree
        ≤ (C o.factor).degree + ((o.value - C o.leaf) * cofactor w n o.index).degree :=
          degree_mul_le _ _
      _ ≤ 0 + ((o.value - C o.leaf) * cofactor w n o.index).degree := by
          gcongr
          exact degree_C_le
      _ = ((o.value - C o.leaf).natDegree + (cofactor w n o.index).natDegree : Nat) := by
          rw [zero_add, degree_mul, degree_eq_natDegree none.1, degree_eq_natDegree none.2]
          rfl
      _ < (n + n : Nat) := by exact_mod_cast Nat.add_lt_add first second

omit root in
theorem total_degree {os : List (Opening F F[X])}
    (inside : ∀ o ∈ os, o.index < n ∧ o.value.degree < n) :
    (total w n X os).degree < (n + n : Nat) := by
  induction os with
  | nil =>
    rw [total_nil, degree_zero]
    exact WithBot.bot_lt_coe _
  | cons o os ih =>
    obtain ⟨here, low⟩ := inside o List.mem_cons_self
    rw [total_cons]
    exact (degree_add_le _ _).trans_lt (max_lt (term_degree here low)
      (ih fun o member => inside o (List.mem_cons_of_mem _ member)))

/-- The witness that a prover can give for claims about polynomials: there is
    one if and only if the errors cancel at every point of the domain. -/
theorem witness_iff {os : List (Opening F F[X])} (some : 0 < n)
    (inside : ∀ o ∈ os, o.index < n ∧ o.value.degree < n) :
    (∃ q : F[X], q.degree < n ∧ total w n X os = (X ^ n - 1) * q) ↔
      ∀ i < n, errorAt w os i = 0 := by
  have indices : ∀ o ∈ os, o.index < n := fun o member => (inside o member).1
  constructor
  · intro ⟨q, _, divides⟩ i within
    have value := total_eval (w := w) indices within
    rw [divides, eval_mul, vanishing_eval root, zero_mul] at value
    exact (mul_eq_zero.mp value.symm).resolve_right (cofactor_self_unit root within)
  · intro cancel
    obtain ⟨q, divides⟩ := vanishing_divides root some fun i within => by
      rw [total_eval indices within, cancel i within, zero_mul]
    refine ⟨q, ?_, divides⟩
    by_cases none : q = 0
    · rw [none, degree_zero]
      exact WithBot.bot_lt_coe _
    · have bound := total_degree (w := w) inside
      have size : (X ^ n - 1 : F[X]).degree = n := degree_X_pow_sub_C some 1
      rw [divides, degree_mul, size, degree_eq_natDegree none] at bound
      rw [degree_eq_natDegree none]
      have sizes : n + q.natDegree < n + n := by exact_mod_cast bound
      exact_mod_cast (by omega : q.natDegree < n)

omit root in
/-- Nothing but a multiple of the polynomial of the domain can be cancelled. -/
theorem quotient_unique (some : 0 < n) {p q : F[X]} (same : (X ^ n - 1) * p = (X ^ n - 1) * q) :
    p = q := by
  have monic : (X ^ n - 1 : F[X]).Monic := monic_X_pow_sub_C 1 (by omega)
  exact mul_left_cancel₀ monic.ne_zero same

theorem cofactor_unit {s : F} (apart : s ^ n ≠ 1) {i : Nat} (inside : i < n) :
    aeval s (cofactor w n i) ≠ 0 := by
  have product := congrArg (aeval s) (cofactor_mul root inside)
  intro zero
  rw [map_mul, zero, mul_zero] at product
  simp only [map_sub, map_pow, aeval_X, map_one] at product
  exact apart (sub_eq_zero.mp product.symm)

end Root

end Cancel

end Openings
