import StatelessEthereum.KzgSetup
import StatelessEthereum.MultiCombs
import StatelessEthereum.VerkleTree

/- Commitments to vectors and their openings (verkle/commitment_scheme.py). -/
namespace CommitmentScheme
open PythonError BigEndian PolyUtils EvaluationDomain Fft MultiCombs KzgSetup
open VerkleTrees (childValue)
variable {Point G1 G2 FQ12 : Type}

section Commit
variable (curve : Curve Point G1 G2 FQ12) (logFloor : Nat → Nat) (setup : SetupObject G1 G2)

/-- The last steps of both commitments. The coefficients are residues. -/
def commitValues (values : List Int) : Except PyError Point := do
  let coeffs ← fft values setup.modulus setup.rootOfUnity true
  let sum ← lincomb curve.add curve.Z1 logFloor (setup.setup0.take coeffs.length)
    (coeffs.map Int.toNat)
  .ok (curve.normalize sum)

def commitExtension (stemBytes : List Nat) (childCommitmentBytes : Option Bytes) :
    Except PyError Point := do
  let stem ← bytesOf stemBytes
  commitValues curve logFloor setup [1, ofBytes stem, childValue childCommitmentBytes, 0]

def commit (values : List Int) : Except PyError Point :=
  commitValues curve logFloor setup (values ++ List.replicate (setup.width - values.length) 0)

end Commit

def generateQuotient (t : Tables) (values : List Int) (index : Nat) : Except PyError (List Int) :=
  match values[index]?, t.inverses[index]?, (t.lagrangePolys[index]?).bind List.getLast? with
  | some value, some invQ, some last =>
    let P := (values.map fun v => sub t.modulus v value).set index 0
    let PoverQ := List.zipWith (mul t.modulus) P invQ
    let topCoeff := div t.modulus (List.zipWith (mul t.modulus) PoverQ t.powers).sum t.width
    let lagrangeCoefficient := div t.modulus topCoeff last
    if index < PoverQ.length then .ok (PoverQ.set index (t.modulus - lagrangeCoefficient))
    else .error .indexError
  | _, _, _ => .error .indexError

/- Commitments never raise. -/

theorem lincomb_ok (add : G1 → G1 → G1) (zero : G1) (logFloor : Nat → Nat) {numbers : List G1}
    {factors : List Nat} (some : factors ≠ []) (lengths : numbers.length = factors.length) :
    ∃ o, lincomb add zero logFloor numbers factors = .ok o := by
  obtain ⟨o, run, _⟩ := lincomb_value (φ := fun _ => (0 : Nat)) add zero (fun _ _ => rfl) rfl
    logFloor some lengths
  exact ⟨o, run⟩

section Setup
variable {curve : Curve Point G1 G2 FQ12} {secret : Nat} {setup : SetupObject G1 G2} {k : Nat}
  {modulus : Nat} [prime : Fact modulus.Prime] {w : ZMod modulus}

theorem coefficients (lays : Lays setup.toTables modulus k w) {values : List Int}
    (few : values.length ≤ 2 ^ k) :
    ∃ coeffs, fft values setup.modulus setup.rootOfUnity true = .ok coeffs ∧
      coeffs.length = 2 ^ k ∧ Reduced modulus coeffs ∧
      ∀ j < 2 ^ k, residues coeffs j = (interp w (2 ^ k) (residues values)).coeff j := by
  have root : (((setup.rootOfUnity : Nat) : Int) : ZMod modulus) = w := by
    rw [Int.cast_natCast, lays.root]
  have small := lays.small
  have primitive : IsPrimitiveRoot (((setup.rootOfUnity : Nat) : Int) : ZMod modulus) (2 ^ k) := by
    rw [root]
    exact lays.primitive
  have result := fft_inverse primitive (Or.inr (by omega)) few
  rw [root] at result
  rwa [lays.order]

theorem commitValues_ok (curve : Curve Point G1 G2 FQ12) (logFloor : Nat → Nat)
    (lays : Lays setup.toTables modulus k w)
    (points : 2 ^ k ≤ setup.setup0.length) {values : List Int} (few : values.length ≤ 2 ^ k) :
    ∃ p, commitValues curve logFloor setup values = .ok p := by
  obtain ⟨coeffs, run, size, _⟩ := coefficients lays few
  have some : coeffs.map Int.toNat ≠ [] := by
    intro none
    have positive := Nat.two_pow_pos k
    simp only [List.map_eq_nil_iff] at none
    rw [none, List.length_nil] at size
    omega
  have lengths : (setup.setup0.take coeffs.length).length = (coeffs.map Int.toNat).length := by
    simp; omega
  obtain ⟨o, sums⟩ := lincomb_ok curve.add curve.Z1 logFloor some lengths
  exact ⟨curve.normalize o, by simp only [commitValues, run, sums, bind, Except.bind]⟩

theorem commitValues_congr (curve : Curve Point G1 G2 FQ12) (logFloor : Nat → Nat)
    (lays : Lays setup.toTables modulus k w) {values more : List Int}
    (few : values.length ≤ 2 ^ k) (few' : more.length ≤ 2 ^ k)
    (same : (residues values : Nat → ZMod modulus) = residues more) :
    commitValues curve logFloor setup values = commitValues curve logFloor setup more := by
  obtain ⟨coeffs, run, size, reduced, polynomial⟩ := coefficients lays few
  obtain ⟨coeffs', run', size', reduced', polynomial'⟩ := coefficients lays few'
  have equal : coeffs = coeffs' := by
    apply reduced_unique reduced reduced' (size.trans size'.symm)
    intro j inside
    rw [polynomial j (size ▸ inside), polynomial' j (size ▸ inside), same]
  rw [commitValues, commitValues, run, run', equal]

/- Quotients. -/

theorem residues_set (l : List Int) {i : Nat} (inside : i < l.length) (c : Int) (j : Nat) :
    (residues (l.set i c) j : ZMod modulus) = if j = i then (c : ZMod modulus) else residues l j := by
  simp only [residues, List.getD_eq_getElem?_getD, List.getElem?_set]
  split
  · rename_i same
    subst same
    simp
  · rename_i other
    rw [if_neg (Ne.symm other)]

theorem residues_zipWith (f : Int → Int → Int) (xs ys : List Int) {j : Nat} (left : j < xs.length)
    (right : j < ys.length) : (residues (List.zipWith f xs ys) j : ZMod modulus) =
      (f (xs.getD j 0) (ys.getD j 0) : Int) := by
  simp [residues, List.getD_eq_getElem?_getD, left, right]

theorem sum_residues (l : List Int) : ((l.sum : Int) : ZMod modulus) =
    ∑ j ∈ Finset.range l.length, residues l j := by
  induction l with
  | nil => simp
  | cons c l ih =>
    rw [List.sum_cons, Int.cast_add, ih, List.length_cons, Finset.sum_range_succ', add_comm]
    rfl

theorem getElem?_residue (modulus : Nat) {l : List Int} {j : Nat} (inside : j < l.length) :
    ∃ c, l[j]? = some c ∧ (c : ZMod modulus) = residues l j := by
  exact ⟨l[j], List.getElem?_eq_getElem inside, (residues_get inside).symm⟩

/-- The entry of the quotient at the point is chosen so that the weighted sum of
    all entries is zero. -/
theorem balanced {n index : Nat} (inside : index < n) (unit : w ^ index ≠ 0) {q : List Int}
    (size : q.length = n) (zero : (residues q index : ZMod modulus) = 0) {c : Int}
    (cast : (c : ZMod modulus) =
      (∑ j ∈ Finset.range n, residues q j * w ^ j) * (w ^ index)⁻¹) :
    ∑ j ∈ Finset.range n, residues (q.set index (modulus - c)) j * w ^ j = 0 := by
  have parts (j : Nat) : (residues (q.set index (modulus - c)) j : ZMod modulus) * w ^ j =
      residues q j * w ^ j + if j = index then -((c : ZMod modulus) * w ^ index) else 0 := by
    rw [residues_set _ (by omega)]
    by_cases same : j = index
    · rw [if_pos same, if_pos same, same, zero, Int.cast_sub, Int.cast_natCast,
        ZMod.natCast_self]
      ring
    · rw [if_neg same, if_neg same, add_zero]
  rw [Finset.sum_congr rfl fun j _ => parts j, Finset.sum_add_distrib,
    Finset.sum_ite_eq', if_pos (Finset.mem_range.mpr inside), cast, inv_mul_cancel_right₀ unit,
    add_neg_cancel]

section Quotient
variable {t : Tables} (lays : Lays t modulus k w) {index : Nat}
include lays

theorem lagrange_last_unit (index : Nat) : ((2 ^ k : Nat) : ZMod modulus)⁻¹ * w ^ index ≠ 0 := by
  have positive := Nat.two_pow_pos k
  exact mul_ne_zero (inv_ne_zero (order_unit lays.primitive positive))
    (pow_ne_zero index (lays.primitive.ne_zero (by omega)))

variable (inside : index < 2 ^ k)
include inside

theorem lagrange_last : ∃ last, (t.lagrangePolys[index]?).bind List.getLast? = some last ∧
    (last : ZMod modulus) = ((2 ^ k : Nat) : ZMod modulus)⁻¹ * w ^ index := by
  obtain ⟨count, rows⟩ := lays.lagranges
  obtain ⟨size, values⟩ := rows index inside
  have positive := Nat.two_pow_pos k
  have top := values (2 ^ k - 1) (by omega)
  rw [interp_single_top lays.primitive inside] at top
  obtain ⟨last, entry, cast⟩ := getElem?_residue modulus
    (show 2 ^ k - 1 < (t.lagrangePolys.getD index []).length by omega)
  have found : t.lagrangePolys[index]? = some (t.lagrangePolys.getD index []) := by
    rw [List.getD_eq_getElem?_getD, List.getElem?_eq_getElem (by omega)]
    rfl
  refine ⟨last, ?_, cast.trans top⟩
  rw [found, Option.bind_some, List.getLast?_eq_getElem?, size]
  exact entry

theorem inverse_row : ∃ row, t.inverses[index]? = some row ∧ row.length = 2 ^ k ∧
    ∀ j < 2 ^ k, residues row j = (w ^ j - w ^ index)⁻¹ := by
  obtain ⟨count, rows⟩ := lays.inverses
  obtain ⟨size, values⟩ := rows index inside
  refine ⟨t.inverses.getD index [], ?_, size, values⟩
  rw [List.getD_eq_getElem?_getD, List.getElem?_eq_getElem (by omega)]
  rfl

/-- `generate_quotient` divides exactly: the quotient times `X - wⁱ` is the
    polynomial less its value. -/
theorem generateQuotient_divides {values : List Int} (size : values.length = 2 ^ k) :
    ∃ q, generateQuotient t values index = .ok q ∧ q.length = 2 ^ k ∧
      (∀ j < 2 ^ k, j ≠ index → residues q j * (w ^ j - w ^ index) =
        (residues values j - residues values index : ZMod modulus)) ∧
      ∑ j ∈ Finset.range (2 ^ k), residues q j * w ^ j = 0 := by
  have primitive := lays.primitive
  have positive := Nat.two_pow_pos k
  have order := order_unit primitive positive
  have unit : w ^ index ≠ 0 := pow_ne_zero index (primitive.ne_zero (by omega))
  obtain ⟨last, lastEq, lastCast⟩ := lagrange_last lays inside
  have lastUnit := lagrange_last_unit lays index
  obtain ⟨row, rowEq, rowSize, rowValues⟩ := inverse_row lays inside
  obtain ⟨powerCount, powers⟩ := lays.powers
  obtain ⟨value, valueEq, valueCast⟩ := getElem?_residue modulus
    (show index < values.length by omega)
  let P := (values.map fun v => sub modulus v value).set index 0
  let PoverQ := List.zipWith (mul modulus) P row
  let terms := List.zipWith (mul modulus) PoverQ t.powers
  have sizeP : P.length = 2 ^ k := by simp [P, size]
  have sizeQ : PoverQ.length = 2 ^ k := by simp [PoverQ, sizeP, rowSize]
  have sizeT : terms.length = 2 ^ k := by simp [terms, sizeQ, powerCount]
  have valueP (j : Nat) (within : j < 2 ^ k) :
      (residues P j : ZMod modulus) = residues values j - residues values index := by
    rw [residues_set _ (by simp; omega)]
    split
    · rename_i same
      simp [same]
    · rw [← valueCast]
      simp [residues, List.getD_eq_getElem?_getD, size, within]
  have valueQ (j : Nat) (within : j < 2 ^ k) : (residues PoverQ j : ZMod modulus) =
      (residues values j - residues values index) * (w ^ j - w ^ index)⁻¹ := by
    rw [residues_zipWith _ _ _ (by omega) (by omega), mul_cast]
    exact congrArg₂ (· * ·) (valueP j within) (rowValues j within)
  have sum : ((terms.sum : Int) : ZMod modulus) =
      ∑ j ∈ Finset.range (2 ^ k), residues PoverQ j * w ^ j := by
    rw [sum_residues, sizeT]
    apply Finset.sum_congr rfl
    intro j member
    have within := Finset.mem_range.mp member
    rw [residues_zipWith _ _ _ (by omega) (by omega), mul_cast]
    exact congrArg (_ * ·) (powers j (by omega))
  have width : (((2 ^ k : Nat) : Int) : ZMod modulus) = ((2 ^ k : Nat) : ZMod modulus) :=
    Int.cast_natCast _
  let top := div modulus terms.sum (2 ^ k : Nat)
  have lagrange : ((div modulus top last : Int) : ZMod modulus) =
      (∑ j ∈ Finset.range (2 ^ k), residues PoverQ j * w ^ j) * (w ^ index)⁻¹ := by
    rw [div_cast fun zero => absurd (lastCast ▸ zero) lastUnit,
      div_cast fun zero => absurd (width ▸ zero) order, lastCast, width, sum]
    field_simp
  have zero : (residues PoverQ index : ZMod modulus) = 0 := by
    rw [valueQ index inside, sub_self, zero_mul]
  refine ⟨PoverQ.set index (modulus - div modulus top last), ?_, by simp [sizeQ], ?_,
    balanced inside unit sizeQ zero lagrange⟩
  · rw [generateQuotient, valueEq, rowEq, lastEq]
    simp only [lays.order, lays.size]
    exact if_pos (sizeQ.symm ▸ inside)
  · intro j within other
    have apart : w ^ j - w ^ index ≠ 0 :=
      sub_ne_zero.mpr fun same => other (primitive.pow_inj within inside same)
    rw [residues_set _ (by omega), if_neg other, valueQ j within]
    field_simp

end Quotient

end Setup

/- Exact division. -/

section Exact
open Polynomial
variable {modulus : Nat} [prime : Fact modulus.Prime] {k root : Nat}

/-- A factor next to a linear one has the lower degree. -/
theorem cofactor_low {P Q : (ZMod modulus)[X]} {a c : ZMod modulus} {n : Nat}
    (low : P.degree < n) (split : P - C c = (X - C a) * Q) (some : 0 < n) :
    Q.natDegree ≤ n - 2 := by
  by_cases none : Q = 0
  · rw [none, natDegree_zero]
    omega
  · have size : (P - C c).natDegree = 1 + Q.natDegree := by
      rw [split, natDegree_mul (X_sub_C_ne_zero a) none, natDegree_X_sub_C]
    have left : P.natDegree < n := by
      by_cases zero : P = 0
      · rwa [zero, natDegree_zero]
      · exact (natDegree_lt_iff_degree_lt zero).mpr low
    have bound := natDegree_sub_le P (C c)
    rw [natDegree_C] at bound
    omega

/-- `generate_quotient` returns the evaluations of the quotient polynomial. -/
theorem generateQuotient_exact (reduced : root < modulus)
    (primitive : IsPrimitiveRoot (root : ZMod modulus) (2 ^ k)) {values : List Int}
    (size : values.length = 2 ^ k) {index : Nat} (inside : index < 2 ^ k) :
    ∃ t q, makeTables (2 ^ k) modulus root = .ok t ∧ generateQuotient t values index = .ok q ∧
      q.length = 2 ^ k ∧ ∃ P Q : (ZMod modulus)[X], P.degree < (2 ^ k : Nat) ∧
        (∀ j < 2 ^ k, P.eval ((root : ZMod modulus) ^ j) = (residues values j : ZMod modulus)) ∧
        P - C (P.eval ((root : ZMod modulus) ^ index)) =
          (X - C ((root : ZMod modulus) ^ index)) * Q ∧
        Q.natDegree ≤ 2 ^ k - 2 ∧
        ∀ j < 2 ^ k, (residues q j : ZMod modulus) = Q.eval ((root : ZMod modulus) ^ j) := by
  obtain ⟨t, made, lays⟩ := makeTables_lays reduced primitive
  obtain ⟨q, run, length, off, top⟩ := generateQuotient_divides lays inside size
  have low := interp_degree primitive (residues values)
  have product := interp_quotient primitive inside off top
  have value : (interp (root : ZMod modulus) (2 ^ k) (residues values)).eval
      ((root : ZMod modulus) ^ index) = residues values index := interp_eval primitive inside _
  have narrow := cofactor_low low product (Nat.two_pow_pos k)
  refine ⟨t, q, made, run, length, interp root (2 ^ k) (residues values),
    interp root (2 ^ k) (residues q), low, ?_, ?_, narrow, ?_⟩
  · intro j within
    exact interp_eval primitive within _
  · rw [value, product]
  · intro j within
    exact (interp_eval primitive within _).symm

theorem two_primitive : IsPrimitiveRoot (2 : ZMod 5) (2 ^ 2) := by
  rw [IsPrimitiveRoot.iff_orderOf]
  exact orderOf_eq_prime_pow (by decide) (by decide)

theorem generateQuotient_exact_sample : ∃ t q, makeTables (2 ^ 2) 5 2 = .ok t ∧
    generateQuotient t [1, 2, 3, 4] 1 = .ok q ∧ q.length = 2 ^ 2 ∧
      ∃ P Q : (ZMod 5)[X], P.degree < (2 ^ 2 : Nat) ∧
        (∀ j < 2 ^ 2, P.eval (((2 : Nat) : ZMod 5) ^ j) = (residues [1, 2, 3, 4] j : ZMod 5)) ∧
        P - C (P.eval (((2 : Nat) : ZMod 5) ^ 1)) = (X - C (((2 : Nat) : ZMod 5) ^ 1)) * Q ∧
        Q.natDegree ≤ 2 ^ 2 - 2 ∧
        ∀ j < 2 ^ 2, (residues q j : ZMod 5) = Q.eval (((2 : Nat) : ZMod 5) ^ j) :=
  have : Fact (Nat.Prime 5) := ⟨by norm_num⟩
  generateQuotient_exact (by decide) two_primitive rfl (by decide)

end Exact

end CommitmentScheme
