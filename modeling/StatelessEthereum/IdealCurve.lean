import StatelessEthereum.KzgScheme

/- The curve as groups of prime order with a bilinear pairing: every element is
   known by its logarithm. Commitments are then polynomials at the secret. -/
namespace IdealCurve
open Polynomial PythonError BigEndian PolyUtils EvaluationDomain Fft MultiCombs KzgSetup
open CommitmentScheme KzgScheme
variable {Point G1 G2 FQ12 A : Type} [CommRing A] [Algebra (ZMod CURVE_ORDER) A]

/-- Logarithms in a ring over the field of the order. In that field itself they
    are what a bilinear pairing of groups of prime order has; in its polynomials
    they are those of elements that are known as polynomials in the secret. -/
structure Logarithms (curve : Curve Point G1 G2 FQ12) (A : Type) [CommRing A]
    [Algebra (ZMod CURVE_ORDER) A] where
  log : G1 → A
  log₂ : G2 → A
  logT : FQ12 → A
  log_generator : log curve.generator = 1
  log_Z1 : log curve.Z1 = 0
  log_add : ∀ p q, log (curve.add p q) = log p + log q
  log_multiply : ∀ p n, log (curve.multiply p n) = n * log p
  log₂_generator : log₂ curve.generator₂ = 1
  log₂_add : ∀ p q, log₂ (curve.add₂ p q) = log₂ p + log₂ q
  log₂_neg : ∀ p, log₂ (curve.neg₂ p) = - log₂ p
  log₂_multiply : ∀ p n, log₂ (curve.multiply₂ p n) = n * log₂ p
  logT_one : logT curve.one = 0
  logT_mul : ∀ x y, logT (curve.mul x y) = logT x + logT y
  logT_pairing : ∀ q p, logT (curve.pairing q p) = log₂ q * log p
  final : ∀ x, curve.finalExponentiate x = curve.one ↔ logT x = 0

def Logarithms.Lossless {curve : Curve Point G1 G2 FQ12} (logs : Logarithms curve A) : Prop :=
  ∀ p, logs.log (curve.lift (curve.normalize p)) = logs.log p

theorem cast_residue (n : Nat) : (n : A) = algebraMap (ZMod CURVE_ORDER) A n := by
  rw [map_natCast]

theorem cast_toNat {c : Int} (positive : 0 ≤ c) :
    ((c.toNat : Nat) : A) = algebraMap (ZMod CURVE_ORDER) A c := by
  obtain ⟨n, rfl⟩ := Int.eq_ofNat_of_zero_le positive
  simp

/-- A setup whose points are the powers of a secret and the Lagrange polynomials
    at it. -/
structure SetupLogs {curve : Curve Point G1 G2 FQ12} (logs : Logarithms curve A)
    (setup : SetupObject G1 G2) (k : Nat) (w : ZMod CURVE_ORDER) (s : A) : Prop where
  lays : Lays setup.toTables CURVE_ORDER k w
  setup0 : setup.setup0.map logs.log = (List.range (2 ^ k + 1)).map fun i => s ^ i
  setup1 : setup.setup1.map logs.log₂ = (List.range (2 ^ k + 1)).map fun i => s ^ i
  setup2 : setup.setup2.map logs.log =
    (List.range (2 ^ k)).map fun i => aeval s (interp w (2 ^ k) (Pi.single i 1))
  setup3 : setup.setup3.map logs.log₂ =
    (List.range (2 ^ k)).map fun i => aeval s (interp w (2 ^ k) (Pi.single i 1))

section Commitments
variable {curve : Curve Point G1 G2 FQ12} {logs : Logarithms curve A} {setup : SetupObject G1 G2}
  {k : Nat} {w : ZMod CURVE_ORDER} {s : A}

omit [Algebra (ZMod CURVE_ORDER) A] in
theorem weightedSum_known {G : Type} {φ : G → A} {factors : List Nat} {numbers : List G} {n : Nat}
    {g : Nat → A} (size : factors.length = n) (known : numbers.map φ = (List.range n).map g) :
    weightedSum φ factors numbers = ∑ j ∈ Finset.range n, (factors.getD j 0 : A) * g j := by
  have listed : factors = (List.range n).map fun j => factors.getD j 0 := by
    apply List.ext_getElem (by simp [size])
    intro j inside _
    simp [List.getD_eq_getElem?_getD, inside]
  have scaled : weightedSum φ factors numbers =
      (List.zipWith (fun (f : Nat) x => f • x) factors (numbers.map φ)).sum := by
    rw [weightedSum, List.zipWith_map_right]
  rw [scaled, known]
  conv_lhs => rw [listed]
  rw [List.zipWith_map, List.zipWith_self, sum_listRange]
  apply Finset.sum_congr rfl
  intro j _
  rw [nsmul_eq_mul]

theorem aeval_coefficients {p : (ZMod CURVE_ORDER)[X]} {n : Nat} (some : 0 < n)
    (low : p.degree < n) (s : A) :
    aeval s p = ∑ j ∈ Finset.range n, algebraMap (ZMod CURVE_ORDER) A (p.coeff j) * s ^ j := by
  rw [aeval_eq_sum_range' (n := n)]
  · apply Finset.sum_congr rfl
    intro j _
    rw [Algebra.smul_def]
  · by_cases none : p = 0
    · rwa [none, natDegree_zero]
    · exact (natDegree_lt_iff_degree_lt none).mpr low

theorem residue_toNat {l : List Int} (reduced : Reduced CURVE_ORDER l) {j : Nat}
    (inside : j < l.length) :
    (((l.map Int.toNat).getD j 0 : Nat) : A) = algebraMap (ZMod CURVE_ORDER) A (residues l j) := by
  obtain ⟨c, entry, cast⟩ := getElem?_residue CURVE_ORDER inside
  have positive := (reduced c (List.mem_of_getElem? entry)).1
  rw [← cast, ← cast_toNat positive]
  simp [List.getD_eq_getElem?_getD, entry]

theorem monomial_sum {G : Type} {φ : G → A} {numbers : List G} {k : Nat} {w : ZMod CURVE_ORDER}
    {s : A} (primitive : IsPrimitiveRoot w (2 ^ k)) {v : Nat → ZMod CURVE_ORDER} {coeffs : List Int}
    (size : coeffs.length = 2 ^ k) (reduced : Reduced CURVE_ORDER coeffs)
    (polynomial : ∀ j < 2 ^ k, residues coeffs j = (interp w (2 ^ k) v).coeff j)
    (powers : numbers.map φ = (List.range (2 ^ k)).map fun i => s ^ i) :
    weightedSum φ (coeffs.map Int.toNat) numbers = aeval s (interp w (2 ^ k) v) := by
  rw [weightedSum_known (by simp [size]) powers,
    aeval_coefficients (Nat.two_pow_pos k) (interp_degree primitive _)]
  apply Finset.sum_congr rfl
  intro j member
  have inside := Finset.mem_range.mp member
  rw [← polynomial j inside, ← residue_toNat reduced (by omega)]

/-- Values against the Lagrange polynomials at the secret. -/
theorem lagrange_sum {G : Type} {φ : G → A} {numbers : List G} {k : Nat} {w : ZMod CURVE_ORDER}
    {s : A} (primitive : IsPrimitiveRoot w (2 ^ k)) {total : List Int}
    (size : total.length = 2 ^ k) (reduced : Reduced CURVE_ORDER total)
    (lagranges : numbers.map φ =
      (List.range (2 ^ k)).map fun i => aeval s (interp w (2 ^ k) (Pi.single i 1))) :
    weightedSum φ (total.map Int.toNat) numbers =
      aeval s (interp w (2 ^ k) (residues total)) := by
  rw [weightedSum_known (by simp [size]) lagranges, interp_lagrange primitive, map_sum]
  apply Finset.sum_congr rfl
  intro j member
  have inside := Finset.mem_range.mp member
  rw [map_mul, aeval_C, residue_toNat reduced (by omega)]

theorem factors_some {l : List Int} {k : Nat} (size : l.length = 2 ^ k) :
    l.map Int.toNat ≠ [] := by
  intro none
  have positive := Nat.two_pow_pos k
  rw [List.map_eq_nil_iff] at none
  rw [none, List.length_nil] at size
  omega

theorem commitSum_log (ideal : SetupLogs logs setup k w s) (logFloor : Nat → Nat)
    {values : List Int} (few : values.length ≤ 2 ^ k) :
    ∃ o, commitValues curve logFloor setup values = .ok (curve.normalize o) ∧
      logs.log o = aeval s (interp w (2 ^ k) (residues values)) := by
  obtain ⟨coeffs, run, size, reduced, polynomial⟩ := coefficients ideal.lays few
  have count : setup.setup0.length = 2 ^ k + 1 := by
    have lengths := congrArg List.length ideal.setup0
    simpa using lengths
  have some := factors_some size
  have lengths : (setup.setup0.take coeffs.length).length = (coeffs.map Int.toNat).length := by
    simp; omega
  obtain ⟨o, sums, value⟩ := lincomb_value curve.add curve.Z1 logs.log_add logs.log_Z1 logFloor some
    lengths
  refine ⟨o, by simp only [commitValues, run, sums, bind, Except.bind], ?_⟩
  have powers : (setup.setup0.take coeffs.length).map logs.log =
      (List.range (2 ^ k)).map fun i => s ^ i := by
    rw [List.map_take, ideal.setup0, size, ← List.map_take, List.take_range, Nat.min_eq_left (by omega)]
  rw [value, monomial_sum ideal.lays.primitive size reduced polynomial powers]

theorem commitValues_log (ideal : SetupLogs logs setup k w s) (lossless : logs.Lossless)
    (logFloor : Nat → Nat) {values : List Int} (few : values.length ≤ 2 ^ k) :
    ∃ p, commitValues curve logFloor setup values = .ok p ∧
      logs.log (curve.lift p) = aeval s (interp w (2 ^ k) (residues values)) := by
  obtain ⟨o, run, log⟩ := commitSum_log ideal logFloor few
  exact ⟨curve.normalize o, run, by rw [lossless, log]⟩

/-- The witness: a polynomial in its values at the domain, at the secret. -/
theorem lincomb_lagrange (ideal : SetupLogs logs setup k w s) (logFloor : Nat → Nat)
    {total : List Int} (size : total.length = 2 ^ k) (reduced : Reduced CURVE_ORDER total) :
    ∃ o, lincomb curve.add curve.Z1 logFloor setup.setup2 (total.map Int.toNat) = .ok o ∧
      logs.log o = aeval s (interp w (2 ^ k) (residues total)) := by
  have count : setup.setup2.length = 2 ^ k := by
    have lengths := congrArg List.length ideal.setup2
    simpa using lengths
  have some := factors_some size
  have lengths : setup.setup2.length = (total.map Int.toNat).length := by simp [count, size]
  obtain ⟨o, sums, value⟩ := lincomb_value curve.add curve.Z1 logs.log_add logs.log_Z1 logFloor some
    lengths
  exact ⟨o, sums, by rw [value, lagrange_sum ideal.lays.primitive size reduced ideal.setup2]⟩

end Commitments

/- The setup of the constructor. -/

theorem evalPolyAt_log {poly : List Int} {p : (ZMod CURVE_ORDER)[X]} {n : Nat} (some : 0 < n)
    (size : poly.length = n) (coefficients : ∀ j < n, residues poly j = p.coeff j)
    (low : p.degree < n) (secret : Nat) :
    (((evalPolyAt CURVE_ORDER poly secret).toNat : Nat) : A) = aeval (secret : A) p := by
  have positive : (0 : Int) ≤ evalPolyAt CURVE_ORDER poly secret := (mod_reduced _).1
  rw [cast_toNat positive, evalPolyAt_cast, aeval_coefficients some low, size, sum_listRange,
    map_sum]
  apply Finset.sum_congr rfl
  intro j member
  have known := coefficients j (Finset.mem_range.mp member)
  rw [← known, map_mul, map_pow, Int.cast_natCast, map_natCast]
  rfl

theorem lagrange_values {t : Tables} {k : Nat} {w : ZMod CURVE_ORDER}
    (lays : Lays t CURVE_ORDER k w) (secret : Nat) :
    (t.lagrangePolys.map fun l => (((evalPolyAt CURVE_ORDER l secret).toNat : Nat) : A)) =
      (List.range (2 ^ k)).map fun i => aeval (secret : A) (interp w (2 ^ k) (Pi.single i 1)) := by
  obtain ⟨count, rows⟩ := lays.lagranges
  have listed : t.lagrangePolys = (List.range (2 ^ k)).map fun i => t.lagrangePolys.getD i [] := by
    apply List.ext_getElem (by simp [count])
    intro i inside _
    simp [List.getD_eq_getElem?_getD, inside]
  rw [listed, List.map_map]
  apply List.map_congr_left
  intro i member
  obtain ⟨size, coefficients⟩ := rows i (List.mem_range.mp member)
  exact evalPolyAt_log (Nat.two_pow_pos k) size coefficients (interp_degree lays.primitive _) secret

theorem secret_power (secret i : Nat) :
    ((powMod secret i CURVE_ORDER : Nat) : A) = (secret : A) ^ i := by
  rw [cast_residue, powMod_cast, map_pow, map_natCast]

theorem standard_logs {curve : Curve Point G1 G2 FQ12} (logs : Logarithms curve A) {secret : Nat}
    {setup : SetupObject G1 G2} {k : Nat} {w : ZMod CURVE_ORDER}
    (standard : Standard curve secret setup k w) :
    SetupLogs logs setup k w (secret : A) := by
  have values := lagrange_values (A := A) standard.tables secret
  constructor
  · exact standard.tables
  · rw [standard.setup0, List.map_map]
    exact List.map_congr_left fun i _ => by
      rw [Function.comp_apply, logs.log_multiply, logs.log_generator, mul_one, secret_power]
  · rw [standard.setup1, List.map_map]
    exact List.map_congr_left fun i _ => by
      rw [Function.comp_apply, logs.log₂_multiply, logs.log₂_generator, mul_one, secret_power]
  · rw [standard.setup2, List.map_map, ← values]
    exact List.map_congr_left fun l _ => by
      rw [Function.comp_apply, logs.log_multiply, logs.log_generator, mul_one]
  · rw [standard.setup3, List.map_map, ← values]
    exact List.map_congr_left fun l _ => by
      rw [Function.comp_apply, logs.log₂_multiply, logs.log₂_generator, mul_one]

/- The curves of samples. -/
section Table
open VerkleSerialization

def tabledLogs (points : List (Nat × Point2D)) : Logarithms (tabledCurve points) (ZMod CURVE_ORDER) where
  log p := (p : Nat)
  log₂ p := (p : Nat)
  logT x := (x : Nat)
  log_generator := by simp [tabledCurve, sampleCurve]
  log_Z1 := by simp [tabledCurve, sampleCurve]
  log_add p q := by simp [tabledCurve, sampleCurve]
  log_multiply p n := by simp [tabledCurve, sampleCurve, mul_comm]
  log₂_generator := by simp [tabledCurve, sampleCurve]
  log₂_add p q := by simp [tabledCurve, sampleCurve]
  log₂_neg p := by
    have order : ((CURVE_ORDER - 1 : Nat) : ZMod CURVE_ORDER) = -1 := by
      rw [Nat.cast_sub (by decide), ZMod.natCast_self, Nat.cast_one, zero_sub]
    simp [tabledCurve, sampleCurve, order]
  log₂_multiply p n := by simp [tabledCurve, sampleCurve, mul_comm]
  logT_one := by simp [tabledCurve, sampleCurve]
  logT_mul x y := by simp [tabledCurve, sampleCurve]
  logT_pairing q p := by simp [tabledCurve, sampleCurve]
  final x := by
    rw [ZMod.natCast_eq_zero_iff, Nat.dvd_iff_mod_eq_zero]
    rfl

theorem tabledLogs_lossless {points : List (Nat × Point2D)}
    (listed : ∀ e ∈ points, (points.find? fun e' => e'.2 = e.2) = some e ∧ e.2.y ≠ fq 0) :
    (tabledLogs points).Lossless := by
  intro p
  have residue : ((p % CURVE_ORDER : Nat) : ZMod CURVE_ORDER) = (p : Nat) := ZMod.natCast_mod _ _
  cases found : points.lookup (p % CURVE_ORDER) with
  | some pt =>
    have member : (p % CURVE_ORDER, pt) ∈ points := by
      obtain ⟨l₁, l₂, split, _⟩ := List.lookup_eq_some_iff.mp found
      simp [split]
    have first := (listed _ member).1
    simp only [tabledLogs, tabledCurve, found, Option.getD_some, first, residue]
  | none =>
    have fresh : (points.find? fun e => e.2 = ⟨fq (p % CURVE_ORDER), fq 0⟩) = none := by
      rw [List.find?_eq_none]
      intro e member same
      exact (listed e member).2 (by rw [decide_eq_true_iff.mp same])
    have small : p % CURVE_ORDER < FIELD_MODULUS :=
      Nat.lt_trans (Nat.mod_lt p (by decide)) (by decide)
    have kept : ((fq (p % CURVE_ORDER) : Fin FIELD_MODULUS) : Nat) = p % CURVE_ORDER :=
      Nat.mod_eq_of_lt small
    simp only [tabledLogs, tabledCurve, found, Option.getD_none, fresh, kept, residue]

end Table

end IdealCurve
