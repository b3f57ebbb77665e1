import StatelessEthereum.IdealCurve

/- Nodes are committed to in the powers of the secret, witnesses in the Lagrange
   polynomials at it. Both give the same element of the group. -/
namespace CommitmentBases
open Polynomial PythonError BigEndian PolyUtils EvaluationDomain Fft MultiCombs KzgSetup
open CommitmentScheme IdealCurve
open KzgScheme (sampleLogFloor)
open VerkleTrees (childValue)
variable {Point G1 G2 FQ12 : Type} [AddCommGroup G1]

/-- The first group of the curve: `multiply` is repeated addition, and every
    element is of the order of the curve. -/
structure OrderGroup (curve : Curve Point G1 G2 FQ12) : Prop where
  add : ∀ p q, curve.add p q = p + q
  zero : curve.Z1 = 0
  multiply : ∀ p n, curve.multiply p n = n • p
  order : ∀ p : G1, CURVE_ORDER • p = 0

section Multiples
variable (g : G1)

theorem weightedSum_multiples (factors ms : List Nat) :
    weightedSum (fun p : G1 => p) factors (ms.map fun m => m • g) =
      weightedSum (fun m : Nat => m) factors ms • g := by
  induction factors generalizing ms with
  | nil => simp [weightedSum]
  | cons f factors ih =>
    cases ms with
    | nil => simp [weightedSum]
    | cons m ms =>
      have rest := ih ms
      simp only [weightedSum, List.map_cons, List.zipWith_cons_cons, List.sum_cons] at rest ⊢
      rw [rest, add_nsmul, smul_eq_mul, mul_comm f m, mul_nsmul]

theorem weightedSum_cast (factors ms : List Nat) :
    ((weightedSum (fun m : Nat => m) factors ms : Nat) : ZMod CURVE_ORDER) =
      weightedSum (fun m : Nat => (m : ZMod CURVE_ORDER)) factors ms := by
  induction factors generalizing ms with
  | nil => simp [weightedSum]
  | cons f factors ih =>
    cases ms with
    | nil => simp [weightedSum]
    | cons m ms =>
      have rest := ih ms
      simp only [weightedSum, List.zipWith_cons_cons, List.sum_cons] at rest ⊢
      rw [Nat.cast_add, rest, smul_eq_mul, Nat.cast_mul, nsmul_eq_mul]

theorem multiple_residue {g : G1} (order : CURVE_ORDER • g = 0) {a b : Nat}
    (same : (a : ZMod CURVE_ORDER) = b) : a • g = b • g := by
  have congruent := (ZMod.natCast_eq_natCast_iff' a b CURVE_ORDER).mp same
  have reduced (n : Nat) : n • g = (n % CURVE_ORDER) • g := by
    conv_lhs => rw [← Nat.mod_add_div n CURVE_ORDER]
    rw [add_nsmul, mul_nsmul, order, nsmul_zero, add_zero]
  rw [reduced a, reduced b, congruent]

end Multiples

section Bases
variable {curve : Curve Point G1 G2 FQ12} (group : OrderGroup curve) (logFloor : Nat → Nat)
  (secret : Nat)
include group

/-- What `lincomb` gives on multiples of the generator is one multiple of it. -/
theorem lincomb_multiple {factors ms : List Nat} (some : factors ≠ [])
    (lengths : ms.length = factors.length) {s : ZMod CURVE_ORDER}
    (value : weightedSum (fun m : Nat => (m : ZMod CURVE_ORDER)) factors ms = s) :
    lincomb curve.add curve.Z1 logFloor (ms.map (curve.multiply curve.generator)) factors =
      .ok (s.val • curve.generator) := by
  have plus (p q : G1) : curve.add p q = p + q := group.add p q
  obtain ⟨o, run, sum⟩ := lincomb_value (φ := fun p : G1 => p) curve.add curve.Z1 plus group.zero
    logFloor some (show (ms.map (curve.multiply curve.generator)).length = factors.length by
      rw [List.length_map, lengths])
  have multiples : ms.map (curve.multiply curve.generator) = ms.map fun m => m • curve.generator :=
    List.map_congr_left fun m _ => group.multiply _ m
  have same : ((weightedSum (fun m : Nat => m) factors ms : Nat) : ZMod CURVE_ORDER) =
      (s.val : Nat) := by
    rw [weightedSum_cast, value, ZMod.natCast_zmod_val]
  rw [run, sum, multiples, weightedSum_multiples, multiple_residue (group.order _) same]

variable {k : Nat} {w : ZMod CURVE_ORDER} {t : Tables} (lays : Lays t CURVE_ORDER k w)
include lays

/-- The inverse transform, and `lincomb` against the powers. -/
theorem commitValues_multiple {values : List Int} (few : values.length ≤ 2 ^ k) :
    commitValues curve logFloor (withPoints curve secret t) values = .ok (curve.normalize
      ((aeval (secret : ZMod CURVE_ORDER) (interp w (2 ^ k) (residues values))).val •
        curve.generator)) := by
  have laid : Lays (withPoints curve secret t).toTables CURVE_ORDER k w := lays
  obtain ⟨coeffs, run, size, reduced, polynomial⟩ := coefficients laid few
  have front : (withPoints curve secret t).setup0.take coeffs.length =
      ((List.range (2 ^ k)).map fun i => powMod secret i CURVE_ORDER).map
        (curve.multiply curve.generator) := by
    rw [withPoints, ← List.map_take, ← List.map_take, List.take_range, lays.size, size,
      Nat.min_eq_left (by omega)]
  have powers : ((List.range (2 ^ k)).map fun i => powMod secret i CURVE_ORDER).map
      (fun m : Nat => (m : ZMod CURVE_ORDER)) =
        (List.range (2 ^ k)).map fun i => (secret : ZMod CURVE_ORDER) ^ i := by
    rw [List.map_map]
    exact List.map_congr_left fun i _ => secret_power secret i
  have value := monomial_sum lays.primitive size reduced polynomial powers
  have sum := lincomb_multiple group logFloor (factors_some size) (by simp [size]) value
  simp only [commitValues, run, front, sum, bind, Except.bind]

theorem lincomb_setup2 {total : List Int} (size : total.length = 2 ^ k)
    (reduced : Reduced CURVE_ORDER total) :
    lincomb curve.add curve.Z1 logFloor (withPoints curve secret t).setup2 (total.map Int.toNat) =
      .ok ((aeval (secret : ZMod CURVE_ORDER) (interp w (2 ^ k) (residues total))).val •
        curve.generator) := by
  have lagranges : (t.lagrangePolys.map fun l => (evalPolyAt CURVE_ORDER l secret).toNat).map
      (fun m : Nat => (m : ZMod CURVE_ORDER)) = (List.range (2 ^ k)).map fun i =>
        aeval (secret : ZMod CURVE_ORDER) (interp w (2 ^ k) (Pi.single i 1)) := by
    rw [List.map_map]
    exact lagrange_values lays secret
  have value := lagrange_sum lays.primitive size reduced lagranges
  have count := lays.lagranges.1
  exact lincomb_multiple group logFloor (factors_some size) (by simp [size, count]) value

end Bases

theorem padded_multiple {curve : Curve Point G1 G2 FQ12} (group : OrderGroup curve)
    (logFloor : Nat → Nat) (secret : Nat) {k : Nat} {w : ZMod CURVE_ORDER} {t : Tables}
    (lays : Lays t CURVE_ORDER k w) {values : List Int} (few : values.length ≤ 2 ^ k)
    {v : List Int} (same : (residues v : Nat → ZMod CURVE_ORDER) = residues values) :
    lincomb curve.add curve.Z1 logFloor (withPoints curve secret t).setup2
        ((zeroPadded CURVE_ORDER (2 ^ k) values).map Int.toNat) =
      .ok ((aeval (secret : ZMod CURVE_ORDER) (interp w (2 ^ k) (residues v))).val •
        curve.generator) := by
  have size : (zeroPadded CURVE_ORDER (2 ^ k) values).length = 2 ^ k := by
    rw [zeroPadded, List.length_append, List.length_map, List.length_replicate]
    omega
  have residue : (residues (zeroPadded CURVE_ORDER (2 ^ k) values) : Nat → ZMod CURVE_ORDER) =
      residues v := by
    funext j
    rw [zeroPadded_residues, same]
  rw [lincomb_setup2 group logFloor secret lays size (zeroPadded_reduced _ _), residue]

/-- Both commitments are the Lagrange-basis commitment to their vector. An
    extension's vector needs a domain that it fits. -/
theorem commitments_agree {curve : Curve Point G1 G2 FQ12} (group : OrderGroup curve)
    (logFloor : Nat → Nat) (secret : Nat) {root k : Nat} (small : root < CURVE_ORDER)
    (order : orderOf (root : ZMod CURVE_ORDER) = 2 ^ k) :
    ∃ t, makeTables (2 ^ k) CURVE_ORDER root = .ok t ∧
      (∀ values : List Int, values.length ≤ 2 ^ k →
        ∃ o, commit curve logFloor (withPoints curve secret t) values = .ok (curve.normalize o) ∧
          lincomb curve.add curve.Z1 logFloor (withPoints curve secret t).setup2
            ((zeroPadded CURVE_ORDER (2 ^ k) values).map Int.toNat) = .ok o) ∧
      (2 ≤ k → ∀ (stem : Bytes) (child : Option Bytes),
        ∃ o, commitExtension curve logFloor (withPoints curve secret t) (stem.map UInt8.toNat) child =
            .ok (curve.normalize o) ∧
          lincomb curve.add curve.Z1 logFloor (withPoints curve secret t).setup2
            ((zeroPadded CURVE_ORDER (2 ^ k) [1, ofBytes stem, childValue child]).map Int.toNat) =
              .ok o) := by
  obtain ⟨t, made, lays⟩ := makeTables_lays small (IsPrimitiveRoot.iff_orderOf.mpr order)
  refine ⟨t, made, ?_, ?_⟩
  · intro values few
    have fits : (values ++ List.replicate (t.width - values.length) 0).length ≤ 2 ^ k := by
      rw [lays.size, List.length_append, List.length_replicate]
      omega
    have committed := commitValues_multiple group logFloor secret lays fits
    have combined := padded_multiple group logFloor secret lays few
      (residues_pad values (t.width - values.length))
    exact ⟨_, committed, combined⟩
  · intro wide stem child
    have room : 2 ^ 2 ≤ 2 ^ k := Nat.pow_le_pow_right (by decide) wide
    have fits : [(1 : Int), ofBytes stem, childValue child, 0].length ≤ 2 ^ k := by
      simpa using room
    have fits' : [(1 : Int), ofBytes stem, childValue child].length ≤ 2 ^ k := by
      simp only [List.length_cons, List.length_nil] at fits ⊢
      omega
    have bytes : bytesOf (stem.map UInt8.toNat) = .ok stem := by
      rw [bytesOf_ok, List.map_map]
      · have kept : stem.map (UInt8.ofNat ∘ UInt8.toNat) = stem.map id :=
          List.map_congr_left fun b _ => UInt8.ofNat_toNat
        rw [kept, List.map_id]
      · intro n member
        obtain ⟨b, _, rfl⟩ := List.mem_map.mp member
        exact b.toNat_lt
    have committed := commitValues_multiple group logFloor secret lays fits
    have combined := padded_multiple group logFloor secret lays fits'
      (residues_pad [(1 : Int), ofBytes stem, childValue child] 1)
    exact ⟨_, by simp only [commitExtension, bytes, bind, Except.bind]; exact committed, combined⟩

def residueCurve : Curve (ZMod CURVE_ORDER) (ZMod CURVE_ORDER) Unit Unit where
  generator := 1
  Z1 := 0
  add p q := p + q
  multiply p n := n • p
  normalize p := p
  lift p := p
  generator₂ := ()
  add₂ _ _ := ()
  multiply₂ _ _ := ()
  neg₂ _ := ()
  one := ()
  mul _ _ := ()
  pairing _ _ := ()
  finalExponentiate _ := ()

theorem residueCurve_group : OrderGroup residueCurve where
  add _ _ := rfl
  zero := rfl
  multiply _ _ := rfl
  order p := by rw [nsmul_eq_mul, ZMod.natCast_self, zero_mul]

theorem commitments_agree_sample : ∃ root t, rootOfUnityCandidates.lookup 16 = some root ∧
    makeTables (2 ^ 4) CURVE_ORDER root = .ok t ∧
    (∃ o, commit residueCurve sampleLogFloor (withPoints residueCurve 77 t) [3, -1] = .ok o ∧
      lincomb residueCurve.add residueCurve.Z1 sampleLogFloor (withPoints residueCurve 77 t).setup2
        ((zeroPadded CURVE_ORDER (2 ^ 4) [3, -1]).map Int.toNat) = .ok o) ∧
    ∃ o, commitExtension residueCurve sampleLogFloor (withPoints residueCurve 77 t) [7, 8] none = .ok o ∧
      lincomb residueCurve.add residueCurve.Z1 sampleLogFloor (withPoints residueCurve 77 t).setup2
        ((zeroPadded CURVE_ORDER (2 ^ 4) [1, ofBytes [7, 8], 0]).map Int.toNat) = .ok o := by
  obtain ⟨root, known⟩ := candidate_hex
  obtain ⟨small, _, _, k, power, primitive⟩ := candidate_primitive known
  have four : k = 4 := (Nat.pow_right_injective (Nat.le_refl 2) (power.trans rfl)).symm
  subst four
  obtain ⟨t, made, plain, extension⟩ := commitments_agree residueCurve_group sampleLogFloor 77 small
    (IsPrimitiveRoot.iff_orderOf.mp primitive)
  exact ⟨root, t, known, made, plain [3, -1] (by decide), extension (by decide) [7, 8] none⟩

end CommitmentBases
