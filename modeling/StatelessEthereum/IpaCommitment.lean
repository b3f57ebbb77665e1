import StatelessEthereum.CommitmentBases

/- Vector commitments over bases that are known multiples of one generator
   (setups/ipa_setup.py, verkle/commitment_scheme_ipa.py). A commitment says no
   more than one residue, so every commitment opens to every vector. -/
namespace IpaCommitment
open PythonError MultiCombs KzgSetup CommitmentBases
open KzgScheme (sampleLogFloor)
variable {Point G1 G2 FQ12 : Type}

structure IPASetup (G1 : Type) where
  width : Nat
  modulus : Nat
  g : List G1
  h : G1

def ipaSetup (curve : Curve Point G1 G2 FQ12) (width : Nat) : IPASetup G1 where
  width := width
  modulus := CURVE_ORDER
  g := (List.range width).map fun i => curve.multiply curve.generator (i + 1)
  h := curve.multiply curve.generator (width + 1)

def commit (curve : Curve Point G1 G2 FQ12) (logFloor : Nat → Nat) (setup : IPASetup G1)
    (values : List Int) (blinding : Int) : Except PyError Point := do
  let values := values ++ List.replicate (setup.width - values.length) 0
  let scalars := values.map fun v => (v % (setup.modulus : Int)).toNat
  let C ← lincomb curve.add curve.Z1 logFloor (setup.g.take scalars.length) scalars
  if blinding % setup.modulus ≠ 0 then
    .ok (curve.normalize
      (curve.add C (curve.multiply setup.h (blinding % setup.modulus).toNat)))
  else .ok (curve.normalize C)

/-- What a commitment depends on. Entries after the width do not count. -/
def weight (width : Nat) (values : List Int) (blinding : Int) : ZMod CURVE_ORDER :=
  ∑ i ∈ Finset.range width, ((i + 1 : Nat) : ZMod CURVE_ORDER) * (values.getD i 0 : Int) +
    ((width + 1 : Nat) : ZMod CURVE_ORDER) * blinding

theorem scalar_residue (v : Int) :
    (((v % CURVE_ORDER).toNat : Nat) : ZMod CURVE_ORDER) = (v : ZMod CURVE_ORDER) := by
  have low : 0 ≤ v % (CURVE_ORDER : Int) := Int.emod_nonneg _ (by decide)
  rw [← Int.cast_natCast, Int.toNat_of_nonneg low, ZMod.intCast_mod]

theorem weightedSum_take {G A : Type} [AddCommMonoid A] {φ : G → A} (factors : List Nat)
    (numbers : List G) :
    weightedSum φ (factors.take numbers.length) numbers = weightedSum φ factors numbers := by
  induction factors generalizing numbers with
  | nil => simp [weightedSum]
  | cons f factors ih =>
    cases numbers with
    | nil => simp [weightedSum]
    | cons n numbers =>
      have rest := ih numbers
      simp only [weightedSum, List.length_cons, List.take_succ_cons, List.zipWith_cons_cons,
        List.sum_cons] at rest ⊢
      rw [rest]

theorem bases_sum {width : Nat} {values : List Int} (long : width ≤ values.length) :
    ((weightedSum (fun m : Nat => m) (values.map fun v => (v % (CURVE_ORDER : Int)).toNat)
        ((List.range width).map (· + 1)) : Nat) : ZMod CURVE_ORDER) =
      ∑ i ∈ Finset.range width,
        ((i + 1 : Nat) : ZMod CURVE_ORDER) * (values.getD i 0 : Int) := by
  have count : ((List.range width).map (· + 1)).length = width := by simp
  rw [← weightedSum_take, count, weightedSum_sum (by simp [long]), count, Nat.cast_sum]
  apply Finset.sum_congr rfl
  intro i inside
  have below : i < width := Finset.mem_range.mp inside
  have held : i < values.length := by omega
  have scalar : ((values.map fun v => (v % (CURVE_ORDER : Int)).toNat).take width).getD i 0 =
      (values.getD i 0 % (CURVE_ORDER : Int)).toNat := by
    simp [List.getD_eq_getElem?_getD, below, held]
  have base : ((List.range width).map (· + 1)).getD i 0 = i + 1 := by
    simp [List.getD_eq_getElem?_getD, below]
  rw [scalar, base, smul_eq_mul, Nat.cast_mul, scalar_residue, mul_comm]

theorem getD_padded (values : List Int) (n i : Nat) :
    (values ++ List.replicate n 0).getD i 0 = values.getD i 0 := by
  by_cases inside : i < values.length
  · rw [List.getD_append _ _ _ _ inside]
  · have none : values.getD i 0 = 0 := List.getD_eq_default _ _ (by omega)
    rw [none, List.getD_append_right _ _ _ _ (by omega), List.getD_eq_getElem?_getD,
      List.getElem?_getD_replicate_default_eq]

section Group
variable [AddCommGroup G1] {curve : Curve Point G1 G2 FQ12} (group : OrderGroup curve)
  (logFloor : Nat → Nat)
include group

/-- The sum over the bases, for vectors of any length. -/
theorem lincomb_bases {width : Nat} {values : List Int} (some : values ≠ [])
    (long : width ≤ values.length) :
    ∃ s : Nat, lincomb curve.add curve.Z1 logFloor ((ipaSetup curve width).g.take values.length)
        (values.map fun v => (v % (CURVE_ORDER : Int)).toNat) = .ok (s • curve.generator) ∧
      (s : ZMod CURVE_ORDER) = ∑ i ∈ Finset.range width,
        ((i + 1 : Nat) : ZMod CURVE_ORDER) * (values.getD i 0 : Int) := by
  have bases : (ipaSetup curve width).g.take values.length =
      ((List.range width).map (· + 1)).map fun m => m • curve.generator := by
    rw [List.take_of_length_le (by simp [ipaSetup, long]), ipaSetup, List.map_map]
    exact List.map_congr_left fun i _ => group.multiply _ _
  have plus (p q : G1) : curve.add p q = p + q := group.add p q
  have scalars : (values.map fun v => (v % (CURVE_ORDER : Int)).toNat) ≠ [] := by
    simpa using some
  have few : ((ipaSetup curve width).g.take values.length).length ≤
      (values.map fun v => (v % (CURVE_ORDER : Int)).toNat).length := by
    simp [bases, long]
  obtain ⟨o, run, sum⟩ := lincomb_surplus (φ := fun p : G1 => p) curve.add curve.Z1 plus
    group.zero logFloor scalars few
  rw [bases, weightedSum_multiples] at sum
  exact ⟨_, by rw [run, sum], bases_sum long⟩

theorem commit_weight {width : Nat} {values : List Int} (some : 0 < width ∨ values ≠ [])
    (blinding : Int) : commit curve logFloor (ipaSetup curve width) values blinding =
      .ok (curve.normalize ((weight width values blinding).val • curve.generator)) := by
  have long : width ≤ (values ++ List.replicate (width - values.length) 0).length := by
    rw [List.length_append, List.length_replicate]
    omega
  have filled : values ++ List.replicate (width - values.length) 0 ≠ [] := by
    intro empty
    rcases some with wide | held
    · rw [empty] at long
      exact absurd long (by simp; omega)
    · exact held (List.append_eq_nil_iff.mp empty).1
  obtain ⟨s, run, residue⟩ := lincomb_bases group logFloor filled long
  simp only [getD_padded] at residue
  have front : commit curve logFloor (ipaSetup curve width) values blinding =
      if blinding % (CURVE_ORDER : Int) ≠ 0 then
        .ok (curve.normalize (curve.add (s • curve.generator)
          (curve.multiply (curve.multiply curve.generator (width + 1))
            (blinding % (CURVE_ORDER : Int)).toNat)))
      else .ok (curve.normalize (s • curve.generator)) := by
    have count : ((values ++ List.replicate (width - values.length) 0).map
        fun v => (v % (CURVE_ORDER : Int)).toNat).length =
          (values ++ List.replicate (width - values.length) 0).length := List.length_map _
    rw [← count] at run
    have first : lincomb curve.add curve.Z1 logFloor
        ((ipaSetup curve width).g.take ((values ++ List.replicate
          ((ipaSetup curve width).width - values.length) 0).map
            fun v => (v % ((ipaSetup curve width).modulus : Int)).toNat).length)
        ((values ++ List.replicate ((ipaSetup curve width).width - values.length) 0).map
          fun v => (v % ((ipaSetup curve width).modulus : Int)).toNat) =
        .ok (s • curve.generator) := run
    simp only [commit, first, bind, Except.bind]
    rfl
  have total : ((s + (blinding % (CURVE_ORDER : Int)).toNat * (width + 1) : Nat) :
      ZMod CURVE_ORDER) = ((weight width values blinding).val : Nat) := by
    rw [ZMod.natCast_zmod_val, weight, ← residue, Nat.cast_add, Nat.cast_mul, scalar_residue]
    ring
  rw [front, ← multiple_residue (group.order _) total]
  by_cases blind : blinding % (CURVE_ORDER : Int) = 0
  · rw [if_neg (not_not.mpr blind), blind, Int.toNat_zero, Nat.zero_mul, Nat.add_zero]
  · rw [if_pos blind, group.add, group.multiply, group.multiply, ← mul_nsmul', ← add_nsmul]

/-- Whoever knows the width can open any commitment to any vector: one free
    entry makes up for the others. -/
theorem commitments_open (injective : Function.Injective curve.normalize)
    (exact : addOrderOf curve.generator = CURVE_ORDER) {width : Nat} (some : 0 < width)
    (values : List Int) (blinding : Int) :
    ∃ c, commit curve logFloor (ipaSetup curve width) values blinding = .ok c ∧
      (∀ values' blinding',
        commit curve logFloor (ipaSetup curve width) values' blinding' = .ok c ↔
          weight width values' blinding' = weight width values blinding) ∧
      ∀ rest, ∃ v : Int, 0 ≤ v ∧ v < CURVE_ORDER ∧
        commit curve logFloor (ipaSetup curve width) (v :: rest) 0 = .ok c := by
  have run (values : List Int) (blinding : Int) :
      commit curve logFloor (ipaSetup curve width) values blinding =
        .ok (curve.normalize ((weight width values blinding).val • curve.generator)) :=
    commit_weight group logFloor (Or.inl some) blinding
  have same (values' : List Int) (blinding' : Int) :
      commit curve logFloor (ipaSetup curve width) values' blinding' =
          .ok (curve.normalize ((weight width values blinding).val • curve.generator)) ↔
        weight width values' blinding' = weight width values blinding := by
    rw [run]
    constructor
    · intro equal
      have multiples := injective (Except.ok.inj equal)
      have residues := nsmul_eq_nsmul_iff_modEq.mp multiples
      rw [exact] at residues
      have casts := (ZMod.natCast_eq_natCast_iff _ _ _).mpr residues
      rwa [ZMod.natCast_zmod_val, ZMod.natCast_zmod_val] at casts
    · intro equal
      rw [equal]
  refine ⟨_, run values blinding, same, fun rest => ?_⟩
  let gap := weight width values blinding - weight width (0 :: rest) 0
  refine ⟨gap.val, by omega, by exact_mod_cast gap.val_lt, (same _ _).mpr ?_⟩
  have absorbed : weight width ((gap.val : Int) :: rest) 0 = gap + weight width (0 :: rest) 0 := by
    obtain ⟨n, rfl⟩ := Nat.exists_eq_succ_of_ne_zero (Nat.ne_of_gt some)
    simp only [weight, Finset.sum_range_succ', List.getD_cons_succ, List.getD_cons_zero]
    push_cast
    rw [ZMod.natCast_zmod_val]
    ring
  rw [absorbed, sub_add_cancel]

end Group

theorem commitments_open_sample :
    ∃ c, commit residueCurve sampleLogFloor (ipaSetup residueCurve 4) [3, -1, 7] 5 = .ok c ∧
      commit residueCurve sampleLogFloor (ipaSetup residueCurve 4) [5, -2, 7] 5 = .ok c ∧
      ∃ v : Int, 0 ≤ v ∧ v < CURVE_ORDER ∧
        commit residueCurve sampleLogFloor (ipaSetup residueCurve 4) [v, 8, 9, 10, 11] 0 = .ok c := by
  have exact : addOrderOf residueCurve.generator = CURVE_ORDER := ZMod.addOrderOf_one CURVE_ORDER
  obtain ⟨c, run, same, opens⟩ := commitments_open residueCurve_group sampleLogFloor
    Function.injective_id exact (by decide : 0 < 4) [3, -1, 7] 5
  have weights : weight 4 [5, -2, 7] 5 = weight 4 [3, -1, 7] 5 := by
    simp only [weight, Finset.sum_range_succ, Finset.sum_range_zero]
    norm_num
  exact ⟨c, run, (same [5, -2, 7] 5).mpr weights, opens [8, 9, 10, 11]⟩

end IpaCommitment
