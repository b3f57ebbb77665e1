import StatelessEthereum.FriQueries
import StatelessEthereum.NumberTransform
import StatelessEthereum.PolynomialFolding

/- What folding does to the polynomial behind a vector of evaluations
   (zkSTARK/fri.py). The code adds the values at opposite points, with the
   challenge as a factor, where the law asks for the even and the odd part. -/
namespace FriFolding
open Polynomial PolynomialFolding EvaluationDomain NumberTransform
open BigEndian FiatShamir LowDegree FriProtocol FriQueries StateEffect

/-- The values of a polynomial at the powers of `w`. -/
structure Evaluates (w : ZMod FIELD_PRIME_INT) (n : Nat) (poly : List UInt64)
    (P : (ZMod FIELD_PRIME_INT)[X]) : Prop where
  size : poly.length = n
  values : ∀ i < n, entries poly i = P.eval (w ^ i)

/-- At every point the even part makes up for the odd one. -/
def Balanced (w : ZMod FIELD_PRIME_INT) (n : Nat) (E O : (ZMod FIELD_PRIME_INT)[X])
    (alpha : ZMod FIELD_PRIME_INT) : Prop :=
  ∀ i < n / 2, alpha * E.eval (w ^ (2 * i)) =
    (alpha + alpha * w ^ i - w ^ i) * O.eval (w ^ (2 * i))

def FoldsAs (w : ZMod FIELD_PRIME_INT) (n : Nat) (poly : List UInt64)
    (E O : (ZMod FIELD_PRIME_INT)[X]) (alpha : UInt64) : Prop :=
  ∀ i < n / 2, entries (foldPolynomial goldilocks poly alpha) i =
    E.eval (w ^ (2 * i)) + alpha.toNat * O.eval (w ^ (2 * i))

theorem half_two_pow {k : Nat} (some : 1 ≤ k) : 2 ^ k = 2 * 2 ^ (k - 1) := by
  rw [← pow_succ', Nat.sub_add_cancel some]

section Fold
variable {k : Nat} {w : ZMod FIELD_PRIME_INT} {poly : List UInt64}
  {E O : (ZMod FIELD_PRIME_INT)[X]} (some : 1 ≤ k) (root : IsPrimitiveRoot w (2 ^ k))
  (evaluates : Evaluates w (2 ^ k) poly (expand _ 2 E + X * expand _ 2 O))
include some root evaluates

theorem fold_values (alpha : UInt64) {i : Nat} (inside : i < 2 ^ k / 2) :
    entries (foldPolynomial goldilocks poly alpha) i =
      (1 + (alpha.toNat : ZMod FIELD_PRIME_INT)) * E.eval (w ^ (2 * i)) +
        (1 - (alpha.toNat : ZMod FIELD_PRIME_INT)) * w ^ i * O.eval (w ^ (2 * i)) := by
  have whole := half_two_pow some
  have half : w ^ 2 ^ (k - 1) = -1 := by
    rw [whole] at root
    exact half_turn root (Nat.two_pow_pos _)
  obtain ⟨here, opposite⟩ := opposite_values half E O i
  have size : poly.length / 2 = 2 ^ (k - 1) := by
    rw [evaluates.size, whole, Nat.mul_div_cancel_left _ Nat.two_pos]
  have first := evaluates.values i (by omega)
  have second := evaluates.values (i + 2 ^ (k - 1)) (by omega)
  rw [here] at first
  rw [opposite] at second
  have entry : (foldPolynomial goldilocks poly alpha).getD i 0 = _ :=
    foldPolynomial_at (show i < poly.length / 2 by omega)
  rw [entries, entry, (add_shows _ _).2, (mul_shows _ _).2, size]
  unfold entries at first second
  rw [first, second]
  ring

theorem foldsAs_iff (alpha : UInt64) :
    FoldsAs w (2 ^ k) poly E O alpha ↔ Balanced w (2 ^ k) E O alpha.toNat := by
  have each (i : Nat) (inside : i < 2 ^ k / 2) :
      entries (foldPolynomial goldilocks poly alpha) i =
          E.eval (w ^ (2 * i)) + alpha.toNat * O.eval (w ^ (2 * i)) ↔
        alpha.toNat * E.eval (w ^ (2 * i)) =
          (alpha.toNat + alpha.toNat * w ^ i - w ^ i) * O.eval (w ^ (2 * i)) := by
    rw [fold_values some root evaluates alpha inside]
    constructor
    · intro same
      linear_combination same
    · intro balanced
      linear_combination balanced
  exact forall₂_congr each

end Fold

/-- One round: the folded values belong to the folded polynomial exactly where
    its parts are balanced. -/
theorem evaluates_next {k : Nat} {w : ZMod FIELD_PRIME_INT} {poly : List UInt64}
    {P : (ZMod FIELD_PRIME_INT)[X]} (some : 1 ≤ k) (root : IsPrimitiveRoot w (2 ^ k))
    (evaluates : Evaluates w (2 ^ k) poly P) (alpha : UInt64) :
    Evaluates (w ^ 2) (2 ^ (k - 1)) (foldPolynomial goldilocks poly alpha)
        (folded P alpha.toNat) ↔
      Balanced w (2 ^ k) (evenPart P) (oddPart P) alpha.toNat := by
  have half : 2 ^ k / 2 = 2 ^ (k - 1) := by
    rw [half_two_pow some, Nat.mul_div_cancel_left _ Nat.two_pos]
  have value (i : Nat) : (folded P (alpha.toNat : ZMod FIELD_PRIME_INT)).eval ((w ^ 2) ^ i) =
      (evenPart P).eval (w ^ (2 * i)) + alpha.toNat * (oddPart P).eval (w ^ (2 * i)) := by
    rw [folded, eval_add, eval_mul, eval_C, ← pow_mul]
  have split : Evaluates w (2 ^ k) poly
      (expand _ 2 (evenPart P) + X * expand _ 2 (oddPart P)) := by
    rw [← parts]
    exact evaluates
  rw [← foldsAs_iff some root split, FoldsAs, half]
  constructor
  · intro next i inside
    rw [next.values i inside, value]
  · intro same
    constructor
    · rw [foldPolynomial_length, evaluates.size, half]
    · intro i inside
      rw [same i inside, value]

/- Whole runs of the prover. -/
section Runs
variable {secureHash sha256 : Digest}

def layerAt (proof : FRIProof) (j : Nat) : List UInt64 :=
  proof.layerPolynomials.getD j proof.finalPolynomial

def challengesOf (alphas : List UInt64) : List (ZMod FIELD_PRIME_INT) :=
  alphas.map fun alpha => (alpha.toNat : ZMod FIELD_PRIME_INT)

theorem foldLayers_tall {turns : Nat} {poly : List UInt64} {proof : FRIProof}
    {s t : FiatShamirTranscript}
    (run : foldLayers secureHash sha256 goldilocks turns poly s = (.ok proof, t)) :
    ∀ layer ∈ proof.layerPolynomials, FINAL_DEGREE_BOUND < layer.length := by
  induction turns generalizing poly proof s t with
  | zero =>
    cases run
    simp
  | succ turns ih =>
    unfold foldLayers at run
    split at run
    · rename_i long
      obtain ⟨root, _, _, run⟩ := bind_inv run
      obtain ⟨_, _, _, run⟩ := bind_inv run
      obtain ⟨alpha, _, _, run⟩ := bind_inv run
      obtain ⟨rest, _, later, run⟩ := bind_inv run
      cases run
      intro layer member
      rcases List.mem_cons.mp member with rfl | member
      · exact long
      · exact ih later layer member
    · cases run
      simp

theorem foldsTo_next {final : List UInt64} {polys : List (List UInt64)} {roots : List Bytes}
    {alphas : List UInt64} (folds : FoldsTo sha256 goldilocks final polys roots alphas) :
    alphas.length = polys.length ∧ ∀ j < polys.length, polys.getD (j + 1) final =
      foldPolynomial goldilocks (polys.getD j final) (alphas.getD j 0) := by
  induction polys generalizing roots alphas with
  | nil =>
    cases roots with
    | nil =>
      cases alphas with
      | nil => simp
      | cons => exact folds.elim
    | cons => exact folds.elim
  | cons poly polys ih =>
    obtain ⟨_, _, alpha, alphas, rfl, rfl, _, headed, rest⟩ := foldsTo_cons folds
    obtain ⟨size, later⟩ := ih rest
    refine ⟨congrArg Nat.succ size, ?_⟩
    intro j inside
    cases j with
    | zero => cases polys <;> exact headed
    | succ j => exact later j (Nat.lt_of_succ_lt_succ inside)

/-- The polynomial after `j` rounds. -/
noncomputable def foldedAt (P : (ZMod FIELD_PRIME_INT)[X]) (alphas : List UInt64) (j : Nat) :
    (ZMod FIELD_PRIME_INT)[X] :=
  foldedBy P (challengesOf (alphas.take j))

theorem foldedAt_succ (P : (ZMod FIELD_PRIME_INT)[X]) {alphas : List UInt64} {j : Nat}
    (inside : j < alphas.length) :
    foldedAt P alphas (j + 1) = folded (foldedAt P alphas j) (alphas.getD j 0).toNat := by
  have next : alphas.take (j + 1) = alphas.take j ++ [alphas.getD j 0] := by
    rw [List.getD_eq_getElem _ _ inside, List.take_concat_get' _ _ inside]
  rw [foldedAt, next, challengesOf, List.map_append]
  exact foldedBy_concat _ _ _

theorem foldedAt_degree {P : (ZMod FIELD_PRIME_INT)[X]} {d : Nat} (low : P.degree < d)
    {alphas : List UInt64} {j : Nat} (inside : j ≤ alphas.length) :
    (foldedAt P alphas j).degree < ((d + 2 ^ j - 1) / 2 ^ j : Nat) := by
  have rounds : (challengesOf (alphas.take j)).length = j := by
    rw [challengesOf, List.length_map, List.length_take_of_le inside]
  have bound := foldedBy_degree low (challengesOf (alphas.take j))
  rw [rounds] at bound
  exact bound

/-- The layers of a run: by induction on the rounds, each of them by `evaluates_next`. -/
theorem layers_evaluate_iff {k : Nat} {w : ZMod FIELD_PRIME_INT} {poly : List UInt64}
    {P : (ZMod FIELD_PRIME_INT)[X]} (root : IsPrimitiveRoot w (2 ^ k))
    (evaluates : Evaluates w (2 ^ k) poly P) {proof : FRIProof} {alphas : List UInt64}
    (known : Layered sha256 goldilocks poly proof alphas)
    (tall : ∀ layer ∈ proof.layerPolynomials, FINAL_DEGREE_BOUND < layer.length) :
    (∀ j ≤ proof.layerPolynomials.length,
        Evaluates (w ^ 2 ^ j) (2 ^ (k - j)) (layerAt proof j) (foldedAt P alphas j)) ↔
      ∀ j < proof.layerPolynomials.length, Balanced (w ^ 2 ^ j) (2 ^ (k - j))
        (evenPart (foldedAt P alphas j)) (oddPart (foldedAt P alphas j))
        (alphas.getD j 0).toNat := by
  obtain ⟨size, headed⟩ := foldsTo_next known.folds
  have round : ∀ j < proof.layerPolynomials.length,
      Evaluates (w ^ 2 ^ j) (2 ^ (k - j)) (layerAt proof j) (foldedAt P alphas j) →
      (Evaluates (w ^ 2 ^ (j + 1)) (2 ^ (k - (j + 1))) (layerAt proof (j + 1))
          (foldedAt P alphas (j + 1)) ↔
        Balanced (w ^ 2 ^ j) (2 ^ (k - j)) (evenPart (foldedAt P alphas j))
          (oddPart (foldedAt P alphas j)) (alphas.getD j 0).toNat) := by
    intro j inside here
    have long : FINAL_DEGREE_BOUND < 2 ^ (k - j) := by
      rw [← here.size, layerAt, List.getD_eq_getElem _ _ inside]
      exact tall _ (List.getElem_mem inside)
    have some : 1 ≤ k - j := by
      by_contra none
      rw [Nat.lt_one_iff.mp (Nat.not_le.mp none)] at long
      exact absurd long (by decide)
    have deeper : IsPrimitiveRoot (w ^ 2 ^ j) (2 ^ (k - j)) := by
      apply root.pow (Nat.two_pow_pos k)
      rw [← pow_add, Nat.add_sub_cancel' (by omega)]
    have square : w ^ 2 ^ (j + 1) = (w ^ 2 ^ j) ^ 2 := by rw [← pow_mul, pow_succ]
    have next : layerAt proof (j + 1) =
        foldPolynomial goldilocks (layerAt proof j) (alphas.getD j 0) := headed j inside
    rw [square, ← Nat.sub_sub, next, foldedAt_succ P (by omega)]
    exact evaluates_next some deeper here _
  constructor
  · intro all j inside
    exact (round j inside (all j inside.le)).mp (all (j + 1) inside)
  · intro balanced j
    induction j with
    | zero =>
      intro _
      have first : layerAt proof 0 = poly := by
        rw [← known.starts, layerAt]
        cases proof.layerPolynomials <;> rfl
      rw [first]
      simpa [foldedAt, challengesOf, foldedBy] using evaluates
    | succ j ih =>
      intro inside
      exact (round j inside (ih (Nat.le_of_succ_le inside))).mpr (balanced j inside)

end Runs

/-- A fold of evaluations at the powers of a root is the documented one exactly
    where the two parts are balanced, and so are all layers of a run. -/
theorem folding_halves_iff (secureHash sha256 : Digest) {k d : Nat} (some : 1 ≤ k)
    {w : ZMod FIELD_PRIME_INT} (root : IsPrimitiveRoot w (2 ^ k)) {poly : List UInt64}
    {P : (ZMod FIELD_PRIME_INT)[X]} (low : P.degree < d)
    (evaluates : Evaluates w (2 ^ k) poly P) :
    (∀ E O : (ZMod FIELD_PRIME_INT)[X], P = expand _ 2 E + X * expand _ 2 O →
      ∀ alpha, FoldsAs w (2 ^ k) poly E O alpha ↔ Balanced w (2 ^ k) E O alpha.toNat) ∧
    ∀ s proof t alphas u, prove secureHash sha256 goldilocks poly s = (.ok proof, t) →
      rebuildAlphas secureHash proof.layerCommitments s = (.ok alphas, u) →
      (∀ j ≤ proof.layerPolynomials.length,
        (foldedAt P alphas j).degree < ((d + 2 ^ j - 1) / 2 ^ j : Nat)) ∧
      ((∀ j ≤ proof.layerPolynomials.length,
          Evaluates (w ^ 2 ^ j) (2 ^ (k - j)) (layerAt proof j) (foldedAt P alphas j)) ↔
        ∀ j < proof.layerPolynomials.length, Balanced (w ^ 2 ^ j) (2 ^ (k - j))
          (evenPart (foldedAt P alphas j)) (oddPart (foldedAt P alphas j))
          (alphas.getD j 0).toNat) := by
  constructor
  · rintro E O rfl alpha
    exact foldsAs_iff some root evaluates alpha
  · intro s proof t alphas u run challenges
    obtain ⟨made, v, folds, finish⟩ := bind_inv run
    obtain ⟨_, _, _, last⟩ := bind_inv finish
    cases last
    obtain ⟨rebuilt, again, known⟩ := foldLayers_replays Nat.le.refl s proof v folds
    cases challenges.symm.trans again
    constructor
    · intro j inside
      apply foldedAt_degree low
      rw [(foldsTo_next known.folds).1]
      exact inside
    · exact layers_evaluate_iff root evaluates known (foldLayers_tall folds)

/-- The values of `X` at the powers of a root of order 64. -/
def identityValues : List UInt64 := powers 549755813888 64 1

theorem identity_root : IsPrimitiveRoot ((549755813888 : Nat) : ZMod FIELD_PRIME_INT) (2 ^ 6) := by
  obtain ⟨w, known, _, root⟩ := getOmega_root (show 6 ≤ 32 by decide)
  have named : getOmega (2 ^ 6) = .ok 549755813888 := by decide +kernel
  cases known.symm.trans named
  exact root

theorem identity_evaluates :
    Evaluates ((549755813888 : Nat) : ZMod FIELD_PRIME_INT) (2 ^ 6) identityValues X := by
  obtain ⟨size, shown⟩ := powers_entries (w := 549755813888) 64 1 (by decide)
  refine ⟨size, ?_⟩
  intro i inside
  rw [identityValues, shown i inside, Nat.cast_one, one_mul, eval_X]

def identityProof : FRIProof :=
  ((prove counting counting goldilocks identityValues (start counting none)).1.toOption).getD
    ⟨[], [], []⟩

theorem identity_proved :
    ∃ t, prove counting counting goldilocks identityValues (start counting none) =
      (.ok identityProof, t) := by
  have made : (prove counting counting goldilocks identityValues (start counting none)).1 =
      .ok identityProof := by decide +kernel
  exact state_after made

/-- The identity folds to the constant 2 where the challenge is 2; the code has
    other values, and what it commits to next in a run is no constant at all. -/
theorem identity_folded_apart :
    IsPrimitiveRoot ((549755813888 : Nat) : ZMod FIELD_PRIME_INT) (2 ^ 6) ∧
    Evaluates ((549755813888 : Nat) : ZMod FIELD_PRIME_INT) (2 ^ 6) identityValues X ∧
    (X : (ZMod FIELD_PRIME_INT)[X]) = expand _ 2 0 + X * expand _ 2 1 ∧
    ¬ FoldsAs ((549755813888 : Nat) : ZMod FIELD_PRIME_INT) (2 ^ 6) identityValues 0 1 2 ∧
    ∃ t, prove counting counting goldilocks identityValues (start counting none) =
        (.ok identityProof, t) ∧ identityProof.layerPolynomials.length = 2 ∧
      ∀ Q : (ZMod FIELD_PRIME_INT)[X], Q.degree < 1 → ∀ x,
        ¬ Evaluates x (2 ^ 5) (layerAt identityProof 1) Q := by
  obtain ⟨t, made⟩ := identity_proved
  refine ⟨identity_root, identity_evaluates, by simp, ?_, t, made, by decide +kernel, ?_⟩
  · intro folds
    have first := folds 0 (by decide)
    rw [eval_zero, eval_one, zero_add, mul_one] at first
    have value : ((foldPolynomial goldilocks identityValues 2).getD 0 0).toNat ≠ 2 := by
      decide
    exact value ((entries_eq_iff (by decide) (by decide)).mp first)
  · intro Q constant x evaluates
    have flat := eq_C_of_degree_le_zero (Nat.WithBot.lt_one_iff_le_zero.mp constant)
    have same : entries (layerAt identityProof 1) 0 = entries (layerAt identityProof 1) 1 := by
      rw [evaluates.values 0 (by decide), evaluates.values 1 (by decide), flat, eval_C, eval_C]
    have apart : ((layerAt identityProof 1).getD 0 0).toNat ≠
        ((layerAt identityProof 1).getD 1 0).toNat := by decide +kernel
    exact apart ((entries_eq_iff (by decide +kernel) (by decide +kernel)).mp same)

def identityAlphas : List UInt64 :=
  ((rebuildAlphas counting identityProof.layerCommitments (start counting none)).1.toOption).getD []

theorem folding_halves_sample :
    (∀ alpha,
      FoldsAs ((549755813888 : Nat) : ZMod FIELD_PRIME_INT) (2 ^ 6) identityValues 0 1 alpha ↔
      Balanced ((549755813888 : Nat) : ZMod FIELD_PRIME_INT) (2 ^ 6) 0 1 alpha.toNat) ∧
    ((∀ j ≤ 2, Evaluates (((549755813888 : Nat) : ZMod FIELD_PRIME_INT) ^ 2 ^ j) (2 ^ (6 - j))
        (layerAt identityProof j) (foldedAt X identityAlphas j)) ↔
      ∀ j < 2, Balanced (((549755813888 : Nat) : ZMod FIELD_PRIME_INT) ^ 2 ^ j) (2 ^ (6 - j))
        (evenPart (foldedAt X identityAlphas j)) (oddPart (foldedAt X identityAlphas j))
        (identityAlphas.getD j 0).toNat) := by
  have low : (X : (ZMod FIELD_PRIME_INT)[X]).degree < (2 : Nat) := by
    rw [degree_X]
    decide
  obtain ⟨t, made⟩ := identity_proved
  have drawn : (rebuildAlphas counting identityProof.layerCommitments (start counting none)).1 =
      .ok identityAlphas := by decide +kernel
  obtain ⟨u, challenges⟩ := state_after drawn
  have layers : identityProof.layerPolynomials.length = 2 := by decide +kernel
  obtain ⟨each, runs⟩ := folding_halves_iff counting counting (show 1 ≤ 6 by decide) identity_root
    low identity_evaluates
  obtain ⟨_, law⟩ := runs _ _ _ _ _ made challenges
  rw [layers] at law
  exact ⟨each 0 1 (by simp), law⟩

end FriFolding
