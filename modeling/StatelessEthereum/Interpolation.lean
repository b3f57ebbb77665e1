import StatelessEthereum.Inversion
import StatelessEthereum.PolyDivision

/- Interpolation (verkle/utils/poly_utils.py): from the master polynomial, by the
   formulas for four and for two points, and for many sets of four points at once. -/
namespace Interpolation
open Polynomial PythonError PolyUtils Fft CoefficientLists PolyDivision

section Operations
variable (modulus : Nat)

/-- `root[j] -= root[j+1] * x` for every `j` but the last. -/
def lower (x : Int) : List Int → List Int
  | c :: d :: root => (c - d * x) :: lower x (d :: root)
  | root => root

def zpoly (xs : List Int) : List Int :=
  (xs.foldl (fun root x => lower x (0 :: root)) [1]).map fun x => x % modulus

/-- The inner loop of `lagrange_interp` for one point, over as many coefficients as
    there are in both lists. -/
def addScaled (y inverse : Int) (num b : List Int) : List Int :=
  let yslice := mul modulus y inverse
  (b.zip num).map fun e => if e.2 ≠ 0 ∧ y ≠ 0 then e.1 + e.2 * yslice else e.1

def accumulate (ys invdenoms : List Int) (nums : List (List Int)) (turns : Nat) : List Int :=
  (List.range turns).foldl (fun b i =>
    addScaled modulus (ys.getD i 0) (invdenoms.getD i 0) (nums.getD i []) b)
      (List.replicate ys.length 0)

def lagrangeInterp (xs ys : List Int) : Except PyError (List Int) := do
  let root := zpoly modulus xs
  if root.length ≠ ys.length + 1 then .error (.assertionError "")
  let nums ← xs.mapM fun x => divPolys modulus root [-x, 1]
  let denoms := (nums.zip xs).map fun e => evalPolyAt modulus e.1 e.2
  let invdenoms := multiInv modulus denoms
  .ok ((accumulate modulus ys invdenoms nums xs.length).map fun x => x % modulus)

def evalQuartic (p : List Int) (x : Int) : Int :=
  let xsq := x * x % modulus
  let xcb := xsq * x
  (p.getD 0 0 + p.getD 1 0 * x + p.getD 2 0 * xsq + p.getD 3 0 * xcb) % modulus

/-- The numerator that three points have in the formulas for four. -/
def cubic (x y z : Int) : List Int := [-(x * y) * z % modulus, x * y + x * z + y * z, -x - y - z, 1]

/-- `eq0` to `eq3`. -/
def cubics (x0 x1 x2 x3 : Int) : List (List Int) :=
  [cubic modulus x1 x2 x3, cubic modulus x0 x2 x3, cubic modulus x0 x1 x3, cubic modulus x0 x1 x2]

/-- `eq0[i] * inv_y0 + eq1[i] * inv_y1` and so on for every coefficient. -/
def combine (size : Nat) (eqs : List (List Int)) (weights : List Int) : List Int :=
  (List.range size).map fun i =>
    ((List.range size).map fun k => (eqs.getD k []).getD i 0 * weights.getD k 0).sum % modulus

def lagrangeInterp4 : List Int → List Int → Except PyError (List Int)
  | x0 :: x1 :: x2 :: x3 :: _, y0 :: y1 :: y2 :: y3 :: _ =>
    let e0 := evalPolyAt modulus (cubic modulus x1 x2 x3) x0
    let e1 := evalPolyAt modulus (cubic modulus x0 x2 x3) x1
    let e2 := evalPolyAt modulus (cubic modulus x0 x1 x3) x2
    let e3 := evalPolyAt modulus (cubic modulus x0 x1 x2) x3
    let e01 := e0 * e1
    let e23 := e2 * e3
    let invall := inv modulus (e01 * e23)
    .ok (combine modulus 4 (cubics modulus x0 x1 x2 x3)
      [y0 * invall * e1 * e23 % modulus, y1 * invall * e0 * e23 % modulus,
        y2 * invall * e01 * e3 % modulus, y3 * invall * e01 * e2 % modulus])
  | _, _ => .error .indexError

def lagrangeInterp2 : List Int → List Int → Except PyError (List Int)
  | x0 :: x1 :: _, y0 :: y1 :: _ =>
    let e0 := evalPolyAt modulus [-x1 % modulus, 1] x0
    let e1 := evalPolyAt modulus [-x0 % modulus, 1] x1
    let invall := inv modulus (e0 * e1)
    .ok (combine modulus 2 [[-x1 % modulus, 1], [-x0 % modulus, 1]]
      [y0 * invall * e1, y1 * invall * e0])
  | _, _ => .error .indexError

/-- One turn of the first loop of `multi_interp_4`: the numerators of a set of points
    and their values at their own points. -/
def quarticSet : List Int → Except PyError (List (List Int) × List Int)
  | x0 :: x1 :: x2 :: x3 :: _ =>
    .ok (cubics modulus x0 x1 x2 x3,
      [evalQuartic modulus (cubic modulus x1 x2 x3) x0,
        evalQuartic modulus (cubic modulus x0 x2 x3) x1,
        evalQuartic modulus (cubic modulus x0 x1 x3) x2,
        evalQuartic modulus (cubic modulus x0 x1 x2) x3])
  | _ => .error .indexError

def scaleSet (eqs : List (List Int)) : List Int → List Int → Except PyError (List Int)
  | y0 :: y1 :: y2 :: y3 :: _, [z0, z1, z2, z3] =>
    .ok (combine modulus 4 eqs
      [y0 * z0 % modulus, y1 * z1 % modulus, y2 * z2 % modulus, y3 * z3 % modulus])
  | _, _ => .error .indexError

def multiInterp4 (xsets ysets : List (List Int)) : Except PyError (List (List Int)) := do
  let data ← (xsets.zip ysets).mapM fun e => do
    let set ← quarticSet modulus e.1
    .ok (e.2, set)
  let invalls := multiInv modulus (data.flatMap fun d => d.2.2)
  data.zipIdx.mapM fun d => scaleSet modulus d.1.2.1 d.1.1 ((invalls.drop (d.2 * 4)).take 4)

end Operations

section Field
variable {modulus : Nat}

theorem evalPolyAt_eval (p : List Int) (x : Int) :
    (evalPolyAt modulus p x : ZMod modulus) = (polyOf modulus p).eval (x : ZMod modulus) := by
  rw [evalPolyAt_cast, polyOf, poly_eval, List.length_map]
  congr 1
  apply List.map_congr_left
  intro j _
  congr 1
  exact (getD_cast p j).symm

theorem lower_length (x : Int) (root : List Int) : (lower x root).length = root.length := by
  induction root with
  | nil => rfl
  | cons c root ih =>
    cases root with
    | nil => rfl
    | cons d root =>
      rw [lower, List.length_cons, ih]
      rfl

/-- `root[j+1]` is read before it is changed. -/
theorem lower_poly (x c : Int) (root : List Int) : polyOf modulus (lower x (c :: root)) =
    polyOf modulus (c :: root) - C (x : ZMod modulus) * polyOf modulus root := by
  induction root generalizing c with
  | nil => simp [lower]
  | cons d root ih =>
    rw [lower, polyOf_cons, ih, polyOf_cons c, polyOf_cons d, Int.cast_sub, Int.cast_mul, C_sub, C_mul]
    ring

theorem zpoly_length (xs : List Int) : (zpoly modulus xs).length = xs.length + 1 := by
  rw [zpoly, List.length_map]
  induction xs using List.reverseRecOn with
  | nil => rfl
  | append_singleton xs x ih =>
    rw [List.foldl_append, List.foldl_cons, List.foldl_nil, lower_length, List.length_cons, ih,
      List.length_append, List.length_singleton]

theorem residues_append_left {xs : List Int} {i : Nat} (rest : List Int) (inside : i < xs.length) :
    @residues modulus (xs ++ rest) i = residues xs i := by
  rw [residues, residues, List.getD_eq_getElem?_getD, List.getElem?_append_left inside,
    List.getD_eq_getElem?_getD]

theorem zpoly_poly (xs : List Int) : polyOf modulus (zpoly modulus xs) =
    Lagrange.nodal (Finset.range xs.length) (@residues modulus xs) := by
  rw [zpoly, polyOf_reduce]
  induction xs using List.reverseRecOn with
  | nil => simp [polyOf_cons]
  | append_singleton xs x ih =>
    have last : @residues modulus (xs ++ [x]) xs.length = x := by simp [residues]
    have before : Lagrange.nodal (Finset.range xs.length) (@residues modulus (xs ++ [x])) =
        Lagrange.nodal (Finset.range xs.length) (residues xs) := by
      rw [Lagrange.nodal, Lagrange.nodal]
      refine Finset.prod_congr rfl fun i member => ?_
      rw [residues_append_left _ (Finset.mem_range.mp member)]
    rw [List.foldl_append, List.foldl_cons, List.foldl_nil, lower_poly, polyOf_cons, ih,
      List.length_append, List.length_singleton, Finset.range_add_one,
      Lagrange.nodal_insert_eq_nodal Finset.notMem_range_self, last, before, Int.cast_zero, C_0]
    ring

theorem addScaled_poly (y inverse : Int) {num b : List Int} (size : num.length = b.length) :
    polyOf modulus (addScaled modulus y inverse num b) =
      polyOf modulus b + C (y * inverse : ZMod modulus) * polyOf modulus num := by
  induction b generalizing num with
  | nil =>
    rw [List.length_eq_zero_iff.mp size]
    simp [addScaled]
  | cons c b ih =>
    cases num with
    | nil => simp at size
    | cons d num =>
      have rest := @ih num (by simpa using size)
      have first : ((if d ≠ 0 ∧ y ≠ 0 then c + d * mul modulus y inverse else c : Int) : ZMod modulus) =
          c + d * (y * inverse) := by
        split
        · push_cast
          rw [mul_cast]
        · rename_i skipped
          rcases not_and_or.mp skipped with zero | zero
          · simp [not_not.mp zero]
          · simp [not_not.mp zero]
      have unfolded : addScaled modulus y inverse (d :: num) (c :: b) =
          (if d ≠ 0 ∧ y ≠ 0 then c + d * mul modulus y inverse else c) ::
            addScaled modulus y inverse num b := rfl
      rw [unfolded, polyOf_cons, rest, first, polyOf_cons, polyOf_cons]
      simp only [C_add, C_mul]
      ring

theorem addScaled_length (y inverse : Int) {num b : List Int} (size : num.length = b.length) :
    (addScaled modulus y inverse num b).length = b.length := by
  rw [addScaled, List.length_map, List.length_zip, size, Nat.min_self]

/-- The sum that the first turns of the outer loop have put together. -/
theorem accumulate_spec (ys inverses : List Int) (nums : List (List Int)) (turns : Nat)
    (size : ∀ i < turns, (nums.getD i []).length = ys.length) :
    (accumulate modulus ys inverses nums turns).length = ys.length ∧
      polyOf modulus (accumulate modulus ys inverses nums turns) = ∑ i ∈ Finset.range turns,
        C (residues ys i * residues inverses i) * polyOf modulus (nums.getD i []) := by
  induction turns with
  | zero => exact ⟨by simp [accumulate], by simp [accumulate, polyOf]⟩
  | succ turns ih =>
    obtain ⟨length, sum⟩ := ih fun i before => size i (Nat.lt_succ_of_lt before)
    have fits := (size turns (Nat.lt_succ_self turns)).trans length.symm
    have turn : accumulate modulus ys inverses nums (turns + 1) =
        addScaled modulus (ys.getD turns 0) (inverses.getD turns 0) (nums.getD turns [])
          (accumulate modulus ys inverses nums turns) := by
      rw [accumulate, List.range_succ, List.foldl_append, List.foldl_cons, List.foldl_nil, accumulate]
    rw [turn]
    refine ⟨(addScaled_length _ _ fits).trans length, ?_⟩
    rw [addScaled_poly _ _ fits, sum, Finset.sum_range_succ]
    rfl

theorem combine_poly {size : Nat} {eqs : List (List Int)} (weights : List Int)
    (sizes : ∀ k < size, (eqs.getD k []).length = size) :
    polyOf modulus (combine modulus size eqs weights) = ∑ k ∈ Finset.range size,
      C (residues weights k) * polyOf modulus (eqs.getD k []) := by
  apply polyOf_ext
  intro j
  rw [finsetSum_coeff]
  rcases Nat.lt_or_ge j size with inside | beyond
  · rw [combine, residues_map _ inside, ZMod.intCast_mod, Int.cast_list_sum, List.map_map, ← sum_listRange]
    congr 1
    apply List.map_congr_left
    intro k _
    rw [coeff_C_mul, polyOf_coeff, Function.comp_apply, Int.cast_mul, mul_comm]
    rfl
  · rw [← polyOf_coeff, (degree_lt_iff_coeff_zero _ _).mp (polyOf_degree _) j
      (by rwa [combine, List.length_map, List.length_range])]
    refine (Finset.sum_eq_zero fun k member => ?_).symm
    rw [coeff_C_mul, (degree_lt_iff_coeff_zero _ _).mp (polyOf_degree _) j
      (by rwa [sizes k (Finset.mem_range.mp member)]), mul_zero]

theorem cubic_poly (x y z : Int) : polyOf modulus (cubic modulus x y z) =
    (X - C (x : ZMod modulus)) * (X - C (y : ZMod modulus)) * (X - C (z : ZMod modulus)) := by
  rw [cubic, polyOf_cons, polyOf_cons, polyOf_cons, polyOf_cons, polyOf_nil, ZMod.intCast_mod]
  push_cast
  simp only [C_neg, C_mul, C_add, C_sub, C_1]
  ring

theorem linear_poly (x : Int) : polyOf modulus [-x % modulus, 1] = X - C (x : ZMod modulus) := by
  rw [polyOf_cons, polyOf_cons, polyOf_nil, ZMod.intCast_mod, Int.cast_neg, C_neg, Int.cast_one, C_1]
  ring

theorem below_four {P : Nat → Prop} (zero : P 0) (one : P 1) (two : P 2) (three : P 3) :
    ∀ k < 4, P k
  | 0, _ => zero
  | 1, _ => one
  | 2, _ => two
  | 3, _ => three
  | k + 4, below => absurd below (by omega)

theorem slice_flatMap {α : Type} {f : α → List Int} {l : List α} (size : ∀ a ∈ l, (f a).length = 4)
    {i : Nat} (inside : i < l.length) : ((l.flatMap f).drop (i * 4)).take 4 = f l[i] := by
  induction l generalizing i with
  | nil => simp at inside
  | cons a l ih =>
    have first := size a List.mem_cons_self
    rw [List.flatMap_cons]
    cases i with
    | zero => rw [Nat.zero_mul, List.drop_zero, ← first, List.take_left, List.getElem_cons_zero]
    | succ i =>
      have next : (i + 1) * 4 = (f a).length + i * 4 := by omega
      rw [next, ← List.drop_drop, List.drop_left, List.getElem_cons_succ]
      exact ih (fun b member => size b (List.mem_cons_of_mem _ member)) (by simpa using inside)

theorem residues_slice (l : List Int) (start : Nat) {k : Nat} (inside : k < 4) :
    @residues modulus ((l.drop start).take 4) k = residues l (start + k) := by
  simp [residues, List.getD_eq_getElem?_getD, List.getElem?_drop, inside]

theorem evalQuartic_eq (c0 c1 c2 c3 x : Int) :
    evalQuartic modulus [c0, c1, c2, c3] x = evalPolyAt modulus [c0, c1, c2, c3] x := by
  have direct : ((c0 + c1 * x + c2 * (x * x % modulus) + c3 * (x * x % modulus * x) : Int) :
      ZMod modulus) = evalPolyAt modulus [c0, c1, c2, c3] x := by
    rw [evalPolyAt_eval, polyOf_cons, polyOf_cons, polyOf_cons, polyOf_cons, polyOf_nil]
    push_cast
    simp only [eval_add, eval_C, eval_mul, eval_X, eval_zero]
    ring
  have same := (ZMod.intCast_eq_intCast_iff' _ _ modulus).mp direct
  rw [evalPolyAt, Int.emod_emod] at same
  exact same

section Prime
variable [prime : Fact modulus.Prime]

def DistinctMod (modulus : Nat) (xs : List Int) : Prop :=
  xs.Pairwise fun x x' : Int => (x : ZMod modulus) ≠ (x' : ZMod modulus)

omit prime in
theorem DistinctMod.distinct {xs : List Int} (distinct : DistinctMod modulus xs) :
    Distinct xs.length (@residues modulus xs) := by
  intro i inside j inside' same
  have inside : i < xs.length := Finset.mem_range.mp (Finset.mem_coe.mp inside)
  have inside' : j < xs.length := Finset.mem_range.mp (Finset.mem_coe.mp inside')
  rw [residues_get inside, residues_get inside'] at same
  have apart := List.pairwise_iff_getElem.mp distinct
  rcases Nat.lt_trichotomy i j with before | rfl | after
  · exact absurd same (apart i j inside inside' before)
  · rfl
  · exact absurd same.symm (apart j i inside' inside after)

structure Cofactor (modulus : Nat) (xs : List Int) (x : Int) (num : List Int) : Prop where
  size : num.length = xs.length
  factor : Lagrange.nodal (Finset.range xs.length) (@residues modulus xs) =
    (X - C (x : ZMod modulus)) * polyOf modulus num

/-- Dividing the master polynomial by a factor of its own leaves nothing over. -/
theorem divPolys_cofactor {xs : List Int} {x : Int} (member : x ∈ xs) :
    ∃ num, divPolys modulus (zpoly modulus xs) [-x, 1] = .ok num ∧ Cofactor modulus xs x num := by
  have some := List.length_pos_of_mem member
  have unit : @residues modulus [-x, 1] 1 ≠ 0 := by simp [residues]
  obtain ⟨num, ran, length, _, rest⟩ := @divPolys_spec modulus _ (zpoly modulus xs) [-x, 1] 1 rfl unit
    (by rw [zpoly_length, List.length_cons, List.length_singleton]; omega)
  rw [zpoly_length, List.length_cons, List.length_singleton] at length
  refine ⟨num, ran, by omega, ?_⟩
  have divisor : polyOf modulus [-x, 1] = X - C (x : ZMod modulus) := by
    rw [polyOf_cons, polyOf_cons, polyOf_nil, Int.cast_neg, C_neg, Int.cast_one, C_1]
    ring
  have root : eval (x : ZMod modulus)
      (Lagrange.nodal (Finset.range xs.length) (@residues modulus xs)) = 0 := by
    obtain ⟨i, inside, rfl⟩ := List.mem_iff_getElem.mp member
    rw [← residues_get inside]
    exact Lagrange.eval_nodal_at_node (Finset.mem_range.mpr inside)
  rw [zpoly_poly, divisor] at rest
  -- the remainder is constant and vanishes at the point
  have constant := eq_C_of_degree_le_zero (Nat.WithBot.lt_one_iff_le_zero.mp rest)
  have zero : eval (x : ZMod modulus) (Lagrange.nodal (Finset.range xs.length) (residues xs) -
      (X - C (x : ZMod modulus)) * polyOf modulus num) = 0 := by
    rw [eval_sub, root, eval_mul, eval_sub, eval_X, eval_C, sub_self, zero_mul, sub_zero]
  rw [constant, eval_C] at zero
  rw [zero, C_0] at constant
  exact sub_eq_zero.mp constant

theorem multiInv_residues {values : List Int} (reduced : Reduced modulus values) (i : Nat) :
    @residues modulus (multiInv modulus values) i = (residues values i)⁻¹ := by
  have casts := @multiInv_cast modulus _ values fun v member =>
    Inversion.residue_proper (reduced v member)
  rw [← getD_cast, casts, ← getD_cast]
  simp only [List.getD_eq_getElem?_getD, List.getElem?_map]
  cases values[i]? with
  | none => simp
  | some v => rfl

theorem evalPolyAt_reduced (p : List Int) (x : Int) :
    0 ≤ evalPolyAt modulus p x ∧ evalPolyAt modulus p x < modulus :=
  have : NeZero modulus := ⟨prime.out.ne_zero⟩
  mod_reduced _

/-- The polynomials that division leaves are the numerators of interpolation. -/
theorem cofactors_numerators {xs : List Int} (distinct : DistinctMod modulus xs)
    {nums : List (List Int)} (each : List.Forall₂ (Cofactor modulus xs) xs nums) :
    (∀ i < xs.length, (nums.getD i []).length = xs.length) ∧
      Numerators xs.length (residues xs) fun i => polyOf modulus (nums.getD i []) := by
  have cofactor : ∀ i < xs.length, Cofactor modulus xs (xs.getD i 0) (nums.getD i []) := by
    intro i inside
    obtain ⟨num, found, holds⟩ := each_at each (List.getElem?_eq_getElem inside)
    rw [List.getD_eq_getElem?_getD, List.getElem?_eq_getElem inside, List.getD_eq_getElem?_getD, found]
    exact holds
  refine ⟨fun i inside => (cofactor i inside).size,
    numerators_of_factors distinct.distinct ?_ fun i inside => (cofactor i inside).factor⟩
  intro i inside
  have low := @polyOf_degree modulus (nums.getD i [])
  rwa [(cofactor i inside).size] at low

omit prime in
theorem denoms_residues {xs : List Int} {nums : List (List Int)} (size : nums.length = xs.length)
    {i : Nat} (inside : i < xs.length) :
    @residues modulus ((nums.zip xs).map fun e => evalPolyAt modulus e.1 e.2) i =
      (polyOf modulus (nums.getD i [])).eval (residues xs i) := by
  have zipped : (nums.zip xs)[i]? = some (nums.getD i [], xs.getD i 0) := by
    rw [List.getElem?_zip_eq_some, List.getD_eq_getElem?_getD, List.getD_eq_getElem?_getD,
      List.getElem?_eq_getElem inside, List.getElem?_eq_getElem (size ▸ inside)]
    exact ⟨rfl, rfl⟩
  rw [residues, List.getD_eq_getElem?_getD, List.getElem?_map, zipped, Option.map_some,
    Option.getD_some, evalPolyAt_eval]
  rfl

theorem lagrangeInterp_spec {xs ys : List Int} (size : ys.length = xs.length)
    (distinct : DistinctMod modulus xs) :
    ∃ out, lagrangeInterp modulus xs ys = .ok out ∧ out.length = xs.length ∧ Reduced modulus out ∧
      ∀ i < xs.length, (polyOf modulus out).eval (residues xs i) = residues ys i := by
  have positive : NeZero modulus := ⟨prime.out.ne_zero⟩
  obtain ⟨nums, ran, each⟩ := mapM_ok fun x member => @divPolys_cofactor modulus _ xs x member
  obtain ⟨sizes, numerators⟩ := cofactors_numerators distinct each
  have reduced : Reduced modulus ((nums.zip xs).map fun e => evalPolyAt modulus e.1 e.2) := by
    intro c member
    obtain ⟨e, _, rfl⟩ := List.mem_map.mp member
    exact evalPolyAt_reduced e.1 e.2
  obtain ⟨length, sum⟩ := @accumulate_spec modulus ys
    (multiInv modulus ((nums.zip xs).map fun e => evalPolyAt modulus e.1 e.2)) nums xs.length
    fun i inside => (sizes i inside).trans size.symm
  have scaled := sum.trans (Finset.sum_congr rfl fun i member => by
    rw [multiInv_residues reduced, denoms_residues each.length_eq.symm (Finset.mem_range.mp member)])
  have ok : lagrangeInterp modulus xs ys = .ok ((accumulate modulus ys
      (multiInv modulus ((nums.zip xs).map fun e => evalPolyAt modulus e.1 e.2)) nums
      xs.length).map fun x => x % modulus) := by
    rw [lagrangeInterp, if_neg (by rw [zpoly_length, size]; omega), ran]
    rfl
  refine ⟨_, ok, ?_, ?_, ?_⟩
  · rw [List.length_map, length, size]
  · intro c member
    obtain ⟨x, _, rfl⟩ := List.mem_map.mp member
    exact mod_reduced x
  · intro i inside
    rw [polyOf_reduce, scaled]
    exact scaledSum_eval numerators (residues ys) inside

/- The formulas. -/

/-- Reduced coefficients are determined by the values at as many points. -/
theorem coefficients_unique {xs out out' : List Int} (distinct : DistinctMod modulus xs)
    (size : out.length = xs.length) (size' : out'.length = xs.length)
    (reduced : Reduced modulus out) (reduced' : Reduced modulus out')
    (same : ∀ i < xs.length, (polyOf modulus out).eval (residues xs i) =
      (polyOf modulus out').eval (residues xs i)) : out = out' := by
  have low := @polyOf_degree modulus out
  have low' := @polyOf_degree modulus out'
  rw [size] at low
  rw [size'] at low'
  have polys := interpolant_unique distinct.distinct low low' same
  refine reduced_unique reduced reduced' (size.trans size'.symm) fun j _ => ?_
  rw [← polyOf_coeff, ← polyOf_coeff, polys]

/-- Numerators weighted with the values over their own ones make the interpolant. -/
theorem combine_interpolates {xs ys weights out : List Int} {eqs : List (List Int)}
    (distinct : DistinctMod modulus xs) (sizes : ∀ k < xs.length, (eqs.getD k []).length = xs.length)
    (numerators : Numerators xs.length (residues xs) fun k => polyOf modulus (eqs.getD k []))
    (scaled : ∀ k < xs.length, @residues modulus weights k =
      residues ys k * ((polyOf modulus (eqs.getD k [])).eval (residues xs k))⁻¹)
    (size : out.length = xs.length) (reduced : Reduced modulus out)
    (values : ∀ i < xs.length, (polyOf modulus out).eval (residues xs i) = residues ys i) :
    combine modulus xs.length eqs weights = out := by
  have positive : NeZero modulus := ⟨prime.out.ne_zero⟩
  refine coefficients_unique distinct (by simp [combine]) size ?_ reduced fun i inside => ?_
  · exact reduced_map _ fun j _ => mod_reduced _
  · rw [values i inside, combine_poly weights sizes]
    have sum := Finset.sum_congr (rfl : Finset.range xs.length = _) fun k member =>
      congrArg (fun w => C w * polyOf modulus (eqs.getD k [])) (scaled k (Finset.mem_range.mp member))
    rw [sum]
    exact scaledSum_eval numerators (residues ys) inside

theorem cubics_numerators {x0 x1 x2 x3 : Int} (distinct : DistinctMod modulus [x0, x1, x2, x3]) :
    Numerators 4 (@residues modulus [x0, x1, x2, x3])
      fun k => polyOf modulus ((cubics modulus x0 x1 x2 x3).getD k []) := by
  have master : Lagrange.nodal (Finset.range 4) (@residues modulus [x0, x1, x2, x3]) =
      (X - C (x0 : ZMod modulus)) * (X - C (x1 : ZMod modulus)) * (X - C (x2 : ZMod modulus)) *
        (X - C (x3 : ZMod modulus)) := by
    rw [Lagrange.nodal]
    simp only [Finset.prod_range_succ, Finset.prod_range_zero, one_mul]
    rfl
  have distinct' : Distinct 4 (@residues modulus [x0, x1, x2, x3]) := distinct.distinct
  refine numerators_of_factors distinct' ?_ ?_
  · exact below_four (polyOf_degree _) (polyOf_degree _) (polyOf_degree _) (polyOf_degree _)
  · rw [master]
    refine below_four ?_ ?_ ?_ ?_
    · change _ = (X - C (x0 : ZMod modulus)) * polyOf modulus (cubic modulus x1 x2 x3)
      rw [cubic_poly]
      ring
    · change _ = (X - C (x1 : ZMod modulus)) * polyOf modulus (cubic modulus x0 x2 x3)
      rw [cubic_poly]
      ring
    · change _ = (X - C (x2 : ZMod modulus)) * polyOf modulus (cubic modulus x0 x1 x3)
      rw [cubic_poly]
      ring
    · change _ = (X - C (x3 : ZMod modulus)) * polyOf modulus (cubic modulus x0 x1 x2)
      rw [cubic_poly]
      ring

theorem pair_numerators {x0 x1 : Int} (distinct : DistinctMod modulus [x0, x1]) :
    Numerators 2 (@residues modulus [x0, x1])
      fun k => polyOf modulus ([[-x1 % modulus, 1], [-x0 % modulus, 1]].getD k []) := by
  have master : Lagrange.nodal (Finset.range 2) (@residues modulus [x0, x1]) =
      (X - C (x0 : ZMod modulus)) * (X - C (x1 : ZMod modulus)) := by
    rw [Lagrange.nodal]
    simp only [Finset.prod_range_succ, Finset.prod_range_zero, one_mul]
    rfl
  have distinct' : Distinct 2 (@residues modulus [x0, x1]) := distinct.distinct
  refine numerators_of_factors distinct' ?_ ?_
  · intro k inside
    match k, inside with
    | 0, _ => exact polyOf_degree [-x1 % modulus, 1]
    | 1, _ => exact polyOf_degree [-x0 % modulus, 1]
  · rw [master]
    intro k inside
    match k, inside with
    | 0, _ =>
      change _ = (X - C (x0 : ZMod modulus)) * polyOf modulus [-x1 % modulus, 1]
      rw [linear_poly]
    | 1, _ =>
      change _ = (X - C (x1 : ZMod modulus)) * polyOf modulus [-x0 % modulus, 1]
      rw [linear_poly, mul_comm]

structure Interpolates (modulus : Nat) (xs ys out : List Int) : Prop where
  size : out.length = xs.length
  reduced : Reduced modulus out
  values : ∀ i < xs.length,
    (polyOf modulus out).eval (@residues modulus xs i) = residues ys i

theorem inv_unit {a : Int} (unit : (a : ZMod modulus) ≠ 0) :
    (inv modulus a : ZMod modulus) = (a : ZMod modulus)⁻¹ :=
  inv_cast fun zero => absurd zero unit

theorem four_weights {e0 e1 e2 e3 : Int} (unit0 : (e0 : ZMod modulus) ≠ 0)
    (unit1 : (e1 : ZMod modulus) ≠ 0) (unit2 : (e2 : ZMod modulus) ≠ 0)
    (unit3 : (e3 : ZMod modulus) ≠ 0) (y0 y1 y2 y3 : Int) :
    let invall := inv modulus (e0 * e1 * (e2 * e3))
    ((y0 * invall * e1 * (e2 * e3) % modulus : Int) : ZMod modulus) = y0 * (e0 : ZMod modulus)⁻¹ ∧
    ((y1 * invall * e0 * (e2 * e3) % modulus : Int) : ZMod modulus) = y1 * (e1 : ZMod modulus)⁻¹ ∧
    ((y2 * invall * (e0 * e1) * e3 % modulus : Int) : ZMod modulus) = y2 * (e2 : ZMod modulus)⁻¹ ∧
    ((y3 * invall * (e0 * e1) * e2 % modulus : Int) : ZMod modulus) = y3 * (e3 : ZMod modulus)⁻¹ := by
  have inverse := @inv_unit modulus _ (e0 * e1 * (e2 * e3)) (by
    push_cast
    exact mul_ne_zero (mul_ne_zero unit0 unit1) (mul_ne_zero unit2 unit3))
  push_cast at inverse
  refine ⟨?_, ?_, ?_, ?_⟩ <;>
  · rw [ZMod.intCast_mod]
    push_cast
    rw [inverse]
    field_simp

theorem lagrangeInterp4_spec {xs ys out : List Int} (four : xs.length = 4) (four' : ys.length = 4)
    (distinct : DistinctMod modulus xs) (interpolates : Interpolates modulus xs ys out) :
    lagrangeInterp4 modulus xs ys = .ok out := by
  match xs, ys, four, four' with
  | [x0, x1, x2, x3], [y0, y1, y2, y3], _, _ =>
    have numerators := cubics_numerators distinct
    have own : ∀ k < 4, (evalPolyAt modulus ((cubics modulus x0 x1 x2 x3).getD k [])
        ([x0, x1, x2, x3].getD k 0) : ZMod modulus) ≠ 0 := by
      intro k inside
      rw [evalPolyAt_eval]
      exact numerators.own k inside
    obtain ⟨weight0, weight1, weight2, weight3⟩ := four_weights (own 0 (by decide)) (own 1 (by decide))
      (own 2 (by decide)) (own 3 (by decide)) y0 y1 y2 y3
    rw [evalPolyAt_eval] at weight0 weight1 weight2 weight3
    exact congrArg Except.ok (@combine_interpolates modulus _ [x0, x1, x2, x3] [y0, y1, y2, y3] _ out _
      distinct (below_four rfl rfl rfl rfl) numerators (below_four weight0 weight1 weight2 weight3)
      interpolates.size interpolates.reduced interpolates.values)

theorem lagrangeInterp2_spec {xs ys out : List Int} (two : xs.length = 2) (two' : ys.length = 2)
    (distinct : DistinctMod modulus xs) (interpolates : Interpolates modulus xs ys out) :
    lagrangeInterp2 modulus xs ys = .ok out := by
  match xs, ys, two, two' with
  | [x0, x1], [y0, y1], _, _ =>
    have numerators := pair_numerators distinct
    have own0 : (evalPolyAt modulus [-x1 % modulus, 1] x0 : ZMod modulus) ≠ 0 := by
      rw [evalPolyAt_eval]
      exact numerators.own 0 (by decide)
    have own1 : (evalPolyAt modulus [-x0 % modulus, 1] x1 : ZMod modulus) ≠ 0 := by
      rw [evalPolyAt_eval]
      exact numerators.own 1 (by decide)
    have inverse := @inv_unit modulus _ (evalPolyAt modulus [-x1 % modulus, 1] x0 *
      evalPolyAt modulus [-x0 % modulus, 1] x1) (by
        rw [Int.cast_mul]
        exact mul_ne_zero own0 own1)
    rw [Int.cast_mul] at inverse
    refine congrArg Except.ok (@combine_interpolates modulus _ [x0, x1] [y0, y1] _ out _ distinct ?_
      numerators ?_ interpolates.size interpolates.reduced interpolates.values)
    · intro k inside
      match k, inside with
      | 0, _ => rfl
      | 1, _ => rfl
    · intro k inside
      match k, inside with
      | 0, _ =>
        refine Eq.trans ?_ (congrArg (fun e : ZMod modulus => (y0 : ZMod modulus) * e⁻¹)
          (evalPolyAt_eval [-x1 % modulus, 1] x0))
        simp only [residues, List.getD_cons_zero]
        push_cast
        rw [inverse]
        field_simp
      | 1, _ =>
        refine Eq.trans ?_ (congrArg (fun e : ZMod modulus => (y1 : ZMod modulus) * e⁻¹)
          (evalPolyAt_eval [-x0 % modulus, 1] x1))
        simp only [residues, List.getD_cons_succ, List.getD_cons_zero]
        push_cast
        rw [inverse]
        field_simp

/-- What the first loop of `multi_interp_4` keeps for a set of points. -/
structure Prepared (modulus : Nat) (xs : List Int) (set : List (List Int) × List Int) : Prop where
  sizes : ∀ k < 4, (set.1.getD k []).length = 4
  targets : set.2.length = 4
  reduced : Reduced modulus set.2
  values : ∀ k < 4, @residues modulus set.2 k =
    (polyOf modulus (set.1.getD k [])).eval (residues xs k)

theorem quarticSet_spec {xs : List Int} (four : xs.length = 4) (distinct : DistinctMod modulus xs) :
    ∃ set, quarticSet modulus xs = .ok set ∧ Prepared modulus xs set ∧
      Numerators 4 (@residues modulus xs) fun k => polyOf modulus (set.1.getD k []) := by
  match xs, four with
  | [x0, x1, x2, x3], _ =>
    refine ⟨_, rfl, ⟨below_four rfl rfl rfl rfl, rfl, ?_, ?_⟩, cubics_numerators distinct⟩
    · intro c member
      have reduced : ∀ p x, 0 ≤ evalQuartic modulus p x ∧ evalQuartic modulus p x < modulus :=
        have : NeZero modulus := ⟨prime.out.ne_zero⟩
        fun _ _ => mod_reduced _
      simp only [List.mem_cons, List.not_mem_nil, or_false] at member
      rcases member with rfl | rfl | rfl | rfl <;> exact reduced _ _
    · simp only [cubic, evalQuartic_eq]
      exact below_four (evalPolyAt_eval _ x0) (evalPolyAt_eval _ x1) (evalPolyAt_eval _ x2)
        (evalPolyAt_eval _ x3)

theorem scaleSet_spec {xs ys zs out : List Int} {set : List (List Int) × List Int}
    (four : xs.length = 4) (four' : ys.length = 4) (size : zs.length = 4)
    (distinct : DistinctMod modulus xs) (prepared : Prepared modulus xs set)
    (numerators : Numerators 4 (@residues modulus xs) fun k =>
      polyOf modulus (set.1.getD k []))
    (inverses : ∀ k < 4, @residues modulus zs k = (residues set.2 k)⁻¹)
    (interpolates : Interpolates modulus xs ys out) : scaleSet modulus set.1 ys zs = .ok out := by
  match xs, ys, zs, four, four', size with
  | [x0, x1, x2, x3], [y0, y1, y2, y3], [z0, z1, z2, z3], _, _, _ =>
    have inverse : ∀ k < 4, @residues modulus [z0, z1, z2, z3] k =
        ((polyOf modulus (set.1.getD k [])).eval (residues [x0, x1, x2, x3] k))⁻¹ := by
      intro k inside
      rw [inverses k inside, prepared.values k inside]
    have weight : ∀ y z : Int, ((y * z % modulus : Int) : ZMod modulus) = (y : ZMod modulus) * z := by
      intro y z
      rw [ZMod.intCast_mod, Int.cast_mul]
    refine congrArg Except.ok (@combine_interpolates modulus _ [x0, x1, x2, x3] [y0, y1, y2, y3] _ out _
      distinct prepared.sizes numerators ?_ interpolates.size interpolates.reduced
      interpolates.values)
    have products : ∀ k < 4, @residues modulus [y0 * z0 % modulus, y1 * z1 % modulus,
        y2 * z2 % modulus, y3 * z3 % modulus] k = residues [y0, y1, y2, y3] k * residues [z0, z1, z2, z3] k :=
      below_four (weight y0 z0) (weight y1 z1) (weight y2 z2) (weight y3 z3)
    intro k inside
    rw [← inverse k inside]
    exact products k inside

structure Quartic (modulus : Nat) (set : List Int × List Int) : Prop where
  points : set.1.length = 4
  values : set.2.length = 4
  distinct : DistinctMod modulus set.1

theorem multiInv_length {values : List Int} (reduced : Reduced modulus values) :
    (multiInv modulus values).length = values.length := by
  have casts := congrArg List.length (@multiInv_cast modulus _ values fun v member =>
    Inversion.residue_proper (reduced v member))
  rwa [List.length_map, List.length_map] at casts

/-- The inverses that one set finds in the batch of all sets. -/
theorem batch_slice {data : List (List Int × List (List Int) × List Int)}
    (targets : ∀ d ∈ data, d.2.2.length = 4) (reduced : ∀ d ∈ data, Reduced modulus d.2.2)
    {i : Nat} (inside : i < data.length) :
    (((multiInv modulus (data.flatMap fun d => d.2.2)).drop (i * 4)).take 4).length = 4 ∧
      ∀ k < 4, @residues modulus
        (((multiInv modulus (data.flatMap fun d => d.2.2)).drop (i * 4)).take 4) k =
          (residues data[i].2.2 k)⁻¹ := by
  have all : Reduced modulus (data.flatMap fun d => d.2.2) := by
    intro c member
    obtain ⟨d, from', here⟩ := List.mem_flatMap.mp member
    exact reduced d from' c here
  have slice := slice_flatMap targets inside
  constructor
  · have length := congrArg List.length slice
    rw [targets _ (List.getElem_mem inside), List.length_take, List.length_drop] at length
    rw [List.length_take, List.length_drop, multiInv_length all, length]
  · intro k below
    rw [residues_slice _ _ below, multiInv_residues all, ← residues_slice _ _ below, slice]

/-- What the first loop keeps for a set, beside its values. -/
structure Entry (modulus : Nat) [Fact modulus.Prime] (set : List Int × List Int)
    (d : List Int × List (List Int) × List Int) : Prop where
  values : d.1 = set.2
  prepared : Prepared modulus set.1 d.2
  numerators : Numerators 4 (@residues modulus set.1) fun k =>
    polyOf modulus (d.2.1.getD k [])

theorem entries_spec {sets : List (List Int × List Int)} (quartics : ∀ s ∈ sets, Quartic modulus s) :
    ∃ data, (sets.mapM fun e => do
        let set ← quarticSet modulus e.1
        .ok (e.2, set)) = Except.ok data ∧ List.Forall₂ (Entry modulus) sets data := by
  refine mapM_ok fun s member => ?_
  obtain ⟨set, ran, prepared, numerators⟩ :=
    quarticSet_spec (quartics s member).points (quartics s member).distinct
  exact ⟨(s.2, set), by rw [ran]; rfl, rfl, prepared, numerators⟩

theorem multiInterp4_spec {sets : List (List Int × List Int)} {outs : List (List Int)}
    (each : List.Forall₂ (fun s out => Quartic modulus s ∧ Interpolates modulus s.1 s.2 out) sets outs) :
    multiInterp4 modulus (sets.map Prod.fst) (sets.map Prod.snd) = .ok outs := by
  have zipped : (sets.map Prod.fst).zip (sets.map Prod.snd) = sets := by
    rw [List.zip_map']
    exact List.map_id sets
  obtain ⟨size, here⟩ := List.forall₂_iff_get.mp each
  have quartics : ∀ s ∈ sets, Quartic modulus s := by
    intro s member
    obtain ⟨i, inside, rfl⟩ := List.mem_iff_getElem.mp member
    exact (here i inside (size ▸ inside)).1
  obtain ⟨data, ran, entries⟩ := entries_spec quartics
  obtain ⟨size', entry⟩ := List.forall₂_iff_get.mp entries
  have prepared : ∀ d ∈ data, ∃ xs, Prepared modulus xs d.2 := by
    intro d member
    obtain ⟨i, inside, rfl⟩ := List.mem_iff_getElem.mp member
    exact ⟨_, (entry i (size' ▸ inside) inside).prepared⟩
  have targets : ∀ d ∈ data, d.2.2.length = 4 := fun d member => (prepared d member).elim fun _ p => p.targets
  have reduced : ∀ d ∈ data, Reduced modulus d.2.2 := fun d member =>
    (prepared d member).elim fun _ p => p.reduced
  have turns : (data.zipIdx.mapM fun d => scaleSet modulus d.1.2.1 d.1.1
      (((multiInv modulus (data.flatMap fun d => d.2.2)).drop (d.2 * 4)).take 4)) = .ok outs := by
    refine mapM_of_each (List.forall₂_iff_get.mpr ⟨by rw [List.length_zipIdx, ← size', size], ?_⟩)
    intro i inside inside'
    rw [List.length_zipIdx] at inside
    obtain ⟨quartic, interpolates⟩ := here i (size' ▸ inside) inside'
    obtain ⟨values, prepared, numerators⟩ := entry i (size' ▸ inside) inside
    obtain ⟨length, inverses⟩ := batch_slice targets reduced inside
    simp only [List.get_eq_getElem, List.getElem_zipIdx, Nat.zero_add]
    simp only [List.get_eq_getElem] at values
    rw [values]
    exact scaleSet_spec quartic.points quartic.values length quartic.distinct prepared numerators
      inverses interpolates
  rw [multiInterp4, zipped, ran]
  exact turns

/-- Interpolation, the general one and the formulas. -/
theorem interpolation_agrees :
    (∀ xs ys : List Int, ys.length = xs.length → DistinctMod modulus xs →
      ∃ out, lagrangeInterp modulus xs ys = .ok out ∧ out.length = xs.length ∧ Reduced modulus out ∧
        (∀ i < xs.length, (polyOf modulus out).eval (residues xs i) = residues ys i) ∧
        (∀ P : (ZMod modulus)[X], P.degree < xs.length →
          (∀ i < xs.length, P.eval (residues xs i) = residues ys i) → P = polyOf modulus out) ∧
        (xs.length = 4 → lagrangeInterp4 modulus xs ys = .ok out) ∧
        (xs.length = 2 → lagrangeInterp2 modulus xs ys = .ok out)) ∧
    ∀ sets : List (List Int × List Int), (∀ s ∈ sets, Quartic modulus s) →
      ∃ outs, multiInterp4 modulus (sets.map Prod.fst) (sets.map Prod.snd) = .ok outs ∧
        List.Forall₂ (fun s out => lagrangeInterp4 modulus s.1 s.2 = .ok out) sets outs := by
  constructor
  · intro xs ys size distinct
    obtain ⟨out, ran, length, reduced, values⟩ := lagrangeInterp_spec size distinct
    have interpolates : Interpolates modulus xs ys out := ⟨length, reduced, values⟩
    refine ⟨out, ran, length, reduced, values, ?_, ?_, ?_⟩
    · intro P low same
      have low' := @polyOf_degree modulus out
      rw [length] at low'
      exact interpolant_unique distinct.distinct low low' fun i inside =>
        (same i inside).trans (values i inside).symm
    · exact fun four => lagrangeInterp4_spec four (size.trans four) distinct interpolates
    · exact fun two => lagrangeInterp2_spec two (size.trans two) distinct interpolates
  · intro sets quartics
    have each : ∀ s ∈ sets, ∃ out, lagrangeInterp4 modulus s.1 s.2 = .ok out ∧
        Quartic modulus s ∧ Interpolates modulus s.1 s.2 out := by
      intro s member
      have quartic := quartics s member
      obtain ⟨out, _, length, reduced, values⟩ := lagrangeInterp_spec
        (quartic.values.trans quartic.points.symm) quartic.distinct
      exact ⟨out, lagrangeInterp4_spec quartic.points quartic.values quartic.distinct
        ⟨length, reduced, values⟩, quartic, length, reduced, values⟩
    obtain ⟨outs, ran, interpolants⟩ := mapM_ok each
    exact ⟨outs, multiInterp4_spec interpolants, mapM_inv ran⟩

end Prime

end Field

theorem interpolation_agrees_sample :
    (∃ out, lagrangeInterp 17 [3, -1, 21, 8] [1, 5, -2, 40] = .ok out ∧ out.length = 4 ∧
      lagrangeInterp4 17 [3, -1, 21, 8] [1, 5, -2, 40] = .ok out) ∧
    (∃ out, lagrangeInterp 17 [3, -1] [1, 5] = .ok out ∧ lagrangeInterp2 17 [3, -1] [1, 5] = .ok out) ∧
    ∃ outs, multiInterp4 17 [[3, -1, 21, 8], [0, 1, 2, 3]] [[1, 5, -2, 40], [0, 1, 4, 9]] = .ok outs ∧
      List.Forall₂ (fun s out => lagrangeInterp4 17 s.1 s.2 = .ok out)
        [([3, -1, 21, 8], [1, 5, -2, 40]), ([0, 1, 2, 3], [0, 1, 4, 9])] outs := by
  have prime : Fact (Nat.Prime 17) := ⟨by decide⟩
  have four : DistinctMod 17 [3, -1, 21, 8] := by
    unfold DistinctMod
    decide
  have squares : DistinctMod 17 [0, 1, 2, 3] := by
    unfold DistinctMod
    decide
  have two : DistinctMod 17 [3, -1] := by
    unfold DistinctMod
    decide
  obtain ⟨general, batch⟩ := @interpolation_agrees 17 _
  refine ⟨?_, ?_, ?_⟩
  · obtain ⟨out, ran, length, _, _, _, fast, _⟩ := general [3, -1, 21, 8] [1, 5, -2, 40] rfl four
    exact ⟨out, ran, length, fast rfl⟩
  · obtain ⟨out, ran, _, _, _, _, _, fast⟩ := general [3, -1] [1, 5] rfl two
    exact ⟨out, ran, fast rfl⟩
  · refine batch [([3, -1, 21, 8], [1, 5, -2, 40]), ([0, 1, 2, 3], [0, 1, 4, 9])] ?_
    intro s member
    simp only [List.mem_cons, List.not_mem_nil, or_false] at member
    rcases member with rfl | rfl
    · exact ⟨rfl, rfl, four⟩
    · exact ⟨rfl, rfl, squares⟩

end Interpolation
