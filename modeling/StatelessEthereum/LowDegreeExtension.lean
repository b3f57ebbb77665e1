import StatelessEthereum.NumberTransform
import StatelessEthereum.PolynomialFolding

/- The low-degree extension of a trace column (zkSTARK/fft.py). Both transforms
   reverse one bit too few, so the odd coefficients of the wider one are all taken
   from the padding, and the column comes out as a polynomial in `X²`. -/
namespace LowDegreeExtension
open Polynomial PolynomialFolding EvaluationDomain NumberTransform
open ButterflyNetwork PythonError PolyUtils FiatShamir LowDegree

def filled (column : List UInt64) : List UInt64 :=
  if column.length &&& (column.length - 1) ≠ 0 then padded column column.length.nextPowerOfTwo
  else column

theorem computeLde_filled (ops : FieldOps) (column : List UInt64) (b : Nat) :
    computeLde ops column b = (do
      let twiddles ← getTwiddles (filled column).length
      let coeffs ← nttInverse ops (filled column) twiddles
      let twiddlesExtended ← getTwiddles ((filled column).length * b)
      .ok (nttForward ops (padded coeffs ((filled column).length * b)) twiddlesExtended)) := rfl

/-- The values of the interpolation polynomial on the wider domain, the column's
    own among them. -/
structure Extends (w u : ZMod FIELD_PRIME_INT) (column lde : List UInt64) (n b : Nat) : Prop where
  size : lde.length = n * b
  values : ∀ i < n * b, entries lde i = (interp w n (entries column)).eval (u ^ i)
  kept : ∀ i < n, lde.getD (b * i) 0 = column.getD i 0

/-- The column repeats after its half, and the polynomial through that half on the
    squares takes at the other points the values in the order of reversed bits. -/
def Spread (w : ZMod FIELD_PRIME_INT) (n : Nat) (v : Nat → ZMod FIELD_PRIME_INT) : Prop :=
  ∀ i < n / 2, v (i + n / 2) = v i ∧
    (interp (w ^ 2) (n / 2) v).eval (w ^ (2 * i + 1)) = v (reverseBits (bitLengthMinusOne n) i)

theorem padded_sound {l : List UInt64} {n size : Nat} (sound : Sound n l) (fits : n ≤ size) :
    Sound size (padded l size) := by
  constructor
  · rw [padded, List.length_append, List.length_replicate, sound.size, Nat.add_sub_cancel' fits]
  · intro x member
    rcases List.mem_append.mp member with old | zero
    · exact sound.reduced x old
    · rw [List.eq_of_mem_replicate zero]
      decide

theorem padded_entries {l : List UInt64} {n size : Nat} (sound : Sound n l) (j : Nat) :
    entries (padded l size) j = if j < n then entries l j else 0 := by
  unfold entries padded
  split
  · rename_i inside
    rw [List.getD_append _ _ _ _ (by rw [sound.size]; exact inside)]
  · rename_i beyond
    rw [List.getD_append_right _ _ _ _ (by rw [sound.size]; omega)]
    simp

section Cover
open private Nat.nextPowerOfTwo.go from Init.Data.Nat.Power2.Basic

theorem covered_go (n power : Nat) (positive : power > 0) :
    n ≤ Nat.nextPowerOfTwo.go n power positive := by
  induction left : n - power using Nat.strong_induction_on generalizing power with
  | _ left ih =>
    rw [Nat.nextPowerOfTwo.go]
    split
    · exact ih (n - power * 2) (by omega) _ _ rfl
    · omega

theorem covered (n : Nat) : n ≤ n.nextPowerOfTwo := covered_go n 1 (by decide)

end Cover

theorem filled_sound {column : List UInt64} (some : column ≠ [])
    (reduced : ∀ x ∈ column, x.toNat < FIELD_PRIME_INT) : ∃ k, Sound (2 ^ k) (filled column) := by
  have sound : Sound column.length column := ⟨rfl, reduced⟩
  unfold filled
  split
  · obtain ⟨k, power⟩ := Nat.isPowerOfTwo_nextPowerOfTwo column.length
    refine ⟨k, ?_⟩
    rw [← power]
    exact padded_sound sound (covered column.length)
  · rename_i exact
    obtain ⟨k, power⟩ := Nat.ne_zero_and_sub_one_eq_zero_iff_isPowerOfTwo.mp
      ⟨(List.length_pos_of_ne_nil some).ne', not_not.mp exact⟩
    exact ⟨k, power ▸ sound⟩

theorem getOmega_power {k t w u : Nat} (bounded : k + t ≤ 32) (known : getOmega (2 ^ k) = .ok w)
    (wider : getOmega (2 ^ (k + t)) = .ok u) :
    (u : ZMod FIELD_PRIME_INT) ^ 2 ^ t = w := by
  rw [getOmega, if_neg (Nat.two_pow_pos _).ne'] at known wider
  cases known
  cases wider
  have whole : 2 ^ (k + t) ∣ FIELD_PRIME_INT - 1 := (pow_dvd_pow 2 bounded).trans (by decide)
  obtain ⟨c, order⟩ := whole
  rw [powMod_cast, powMod_cast, ← pow_mul, order, Nat.mul_div_cancel_left _ (Nat.two_pow_pos _),
    pow_add, Nat.mul_assoc, Nat.mul_div_cancel_left _ (Nat.two_pow_pos _), Nat.mul_comm c]

theorem nttForward_single {values : List UInt64} (single : values.length = 1)
    (twiddles : List UInt64) : nttForward goldilocks values twiddles = values := by
  obtain ⟨c, rfl⟩ := List.length_eq_one_iff.mp single
  have none : Nat.log2 1 = 0 := by decide
  simp [nttForward, swapUp, bitLengthMinusOne, reverseBits, List.range_succ, none]

section Sizes
variable {k : Nat} (bounded : k ≤ 32) {w : ZMod FIELD_PRIME_INT}
  (root : IsPrimitiveRoot w (2 ^ k)) {twiddles : List UInt64} (count : twiddles.length = 2 ^ k)
  (powers : ∀ i < 2 ^ k, entries twiddles i = w ^ i) {values : List UInt64}
  (sound : Sound (2 ^ k) values)
include bounded root count powers sound

theorem coefficients_shown : ∃ back, nttInverse goldilocks values twiddles = .ok back ∧
    Sound (2 ^ k) back ∧ ∀ j < 2 ^ k, entries back j =
      (interp w (2 ^ k) (fun i => entries values (displaced k i))).coeff j := by
  cases k with
  | succ k => exact nttInverse_shows (Nat.succ_pos k) bounded root count powers sound
  | zero =>
    have unit : ∀ i < twiddles.length, entries twiddles i ≠ 0 := by
      intro i inside
      rw [powers i (by omega), Nat.lt_one_iff.mp (by omega : i < 1), pow_zero]
      exact one_ne_zero
    obtain ⟨inverses, run, _⟩ := inverted unit
    have one : ((UInt64.ofNat values.length).toNat : ZMod FIELD_PRIME_INT) = 1 := by
      rw [sound.size]
      rfl
    obtain ⟨nInv, made, _, scale⟩ := inv_shows (one.trans_ne one_ne_zero)
    rw [one, inv_one] at scale
    refine ⟨values.map fun x => goldilocks.mul x nInv, ?_, ⟨?_, ?_⟩, ?_⟩
    · simp only [nttInverse, run, made, bind, Except.bind, nttForward_single sound.size]
    · rw [List.length_map, sound.size]
    · intro x member
      obtain ⟨y, _, rfl⟩ := List.mem_map.mp member
      exact (mul_shows y nInv).1
    · intro j inside
      obtain ⟨c, rfl⟩ := List.length_eq_one_iff.mp sound.size
      obtain rfl : j = 0 := Nat.lt_one_iff.mp inside
      rw [interp_coeff root _ inside]
      simp [entries, dft, displaced, (mul_shows c nInv).2, scale]

end Sizes

/-- The wider transform of the coefficients: its odd places are all taken from the
    padding, so the values are those at the squares. -/
theorem extension_shown {k r : Nat} (grows : k ≤ r) {u : ZMod FIELD_PRIME_INT}
    (root : IsPrimitiveRoot u (2 ^ (r + 1))) {twiddles : List UInt64}
    (powers : ∀ i < 2 ^ (r + 1), entries twiddles i = u ^ i) {coeffs : List UInt64}
    (sound : Sound (2 ^ k) coeffs) {P : (ZMod FIELD_PRIME_INT)[X]} (low : P.degree < (2 ^ k : Nat))
    (known : ∀ j < 2 ^ k, entries coeffs j = P.coeff j) :
    Sound (2 ^ (r + 1)) (nttForward goldilocks (padded coeffs (2 ^ (r + 1))) twiddles) ∧
      ∀ i < 2 ^ (r + 1), entries (nttForward goldilocks (padded coeffs (2 ^ (r + 1))) twiddles) i =
        (expand _ 2 P).eval (u ^ i) := by
  have narrow : 2 ^ k ≤ 2 ^ r := Nat.pow_le_pow_right (by decide) grows
  have double : 2 ^ (r + 1) = 2 * 2 ^ r := pow_succ' 2 r
  have wide := padded_sound sound (show 2 ^ k ≤ 2 ^ (r + 1) by omega)
  have entry (j : Nat) : entries (padded coeffs (2 ^ (r + 1))) j = P.coeff j := by
    rw [padded_entries sound]
    split
    · exact known j ‹_›
    · rename_i beyond
      exact (coeff_eq_zero_of_degree_lt
        (low.trans_le (WithBot.coe_le_coe.mpr (Nat.not_lt.mp beyond)))).symm
  obtain ⟨kept, shown⟩ := nttForward_shows (Nat.le_add_left 1 r) root powers wide
  refine ⟨kept, ?_⟩
  intro i inside
  rw [shown i inside, double]
  apply dft_expand (low.trans_le (WithBot.coe_le_coe.mpr narrow))
  · intro j _
    rw [← double, entry, displaced, if_pos (Nat.mul_mod_right 2 j),
      Nat.mul_div_cancel_left j Nat.two_pos]
  · intro j _
    rw [← double, entry, displaced, if_neg (by omega), Nat.add_sub_cancel]
    apply coeff_eq_zero_of_degree_lt
    exact low.trans_le (WithBot.coe_le_coe.mpr (narrow.trans (Nat.le_add_right _ _)))

theorem displaced_zero {i : Nat} (inside : i < 2 ^ 0) : displaced 0 i = i := by
  rw [Nat.lt_one_iff.mp inside]
  rfl

theorem displaced_inside {k i : Nat} (inside : i < 2 ^ k) : displaced k i < 2 ^ k := by
  cases k with
  | zero => exact (displaced_zero inside).trans_lt inside
  | succ k => exact displaced_lt (Nat.succ_pos k) inside

theorem spread_iff {k : Nat} {w : ZMod FIELD_PRIME_INT} (root : IsPrimitiveRoot w (2 ^ k))
    (v : Nat → ZMod FIELD_PRIME_INT) : Spread w (2 ^ k) v ↔
      expand _ 2 (interp w (2 ^ k) (fun i => v (displaced k i))) = interp w (2 ^ k) v := by
  cases k with
  | zero =>
    have still : interp w (2 ^ 0) (fun i => v (displaced 0 i)) = interp w (2 ^ 0) v := by
      apply interp_congr root
      intro i inside
      rw [displaced_zero inside]
    have flat := eq_C_of_degree_le_zero (Nat.WithBot.lt_one_iff_le_zero.mp (interp_degree root v))
    rw [still, flat, expand_C]
    refine iff_of_true ?_ rfl
    intro i inside
    exact absurd inside (Nat.not_lt_zero i)
  | succ m =>
    have double : 2 ^ (m + 1) = 2 * 2 ^ m := pow_succ' 2 m
    have half : 2 ^ (m + 1) / 2 = 2 ^ m := by
      rw [double, Nat.mul_div_cancel_left _ Nat.two_pos]
    have bits : bitLengthMinusOne (2 ^ (m + 1)) = m := by
      rw [bitLengthMinusOne, Nat.log2_two_pow, Nat.add_sub_cancel]
    have even : ∀ i < 2 ^ m, v (displaced (m + 1) (2 * i)) = v i := by
      intro i _
      rw [displaced, if_pos (Nat.mul_mod_right 2 i), Nat.mul_div_cancel_left i Nat.two_pos]
    have odd (i : Nat) : displaced (m + 1) (2 * i + 1) = mirror m i + 2 ^ m := by
      rw [displaced, if_neg (by omega), Nat.add_sub_cancel, Nat.add_comm]
      congr 2
      omega
    rw [double] at root ⊢
    rw [expand_interp_iff root even, ← double, Spread, half, bits]
    simp only [odd, reverseBits_eq]
    constructor
    · intro spread i inside
      rw [(spread _ (mirror_lt m i)).1]
      exact spread i inside
    · intro repeated i inside
      rw [← (repeated _ (mirror_lt m i)).1]
      exact repeated i inside

/-- A column of one value throughout is spread out evenly. -/
theorem spread_constant {k : Nat} {w : ZMod FIELD_PRIME_INT} (root : IsPrimitiveRoot w (2 ^ k))
    {v : Nat → ZMod FIELD_PRIME_INT} {c : ZMod FIELD_PRIME_INT} (constant : ∀ i < 2 ^ k, v i = c) :
    Spread w (2 ^ k) v := by
  have flat : interp w (2 ^ k) v = C c := by
    symm
    apply eq_interp root
    · exact degree_C_le.trans_lt (WithBot.coe_lt_coe.mpr (Nat.two_pow_pos k))
    · intro i inside
      rw [eval_C, constant i inside]
  have still : interp w (2 ^ k) (fun i => v (displaced k i)) = interp w (2 ^ k) v := by
    apply interp_congr root
    intro i inside
    rw [constant i inside, constant _ (displaced_inside inside)]
  rw [spread_iff root, still, flat, expand_C]

/-- Values of a polynomial in `X²` extend the column where it interpolates it. -/
theorem extends_iff {k b : Nat} (grows : 2 ≤ b) {w u : ZMod FIELD_PRIME_INT}
    (root : IsPrimitiveRoot w (2 ^ k)) (wider : IsPrimitiveRoot u (2 ^ k * b)) (power : u ^ b = w)
    {column lde : List UInt64} (sound : Sound (2 ^ k) column) (extended : Sound (2 ^ k * b) lde)
    {P : (ZMod FIELD_PRIME_INT)[X]} (low : P.degree < (2 ^ k : Nat))
    (values : ∀ i < 2 ^ k * b, entries lde i = (expand _ 2 P).eval (u ^ i)) :
    Extends w u column lde (2 ^ k) b ↔ expand _ 2 P = interp w (2 ^ k) (entries column) := by
  have room : 2 * 2 ^ k ≤ 2 ^ k * b := by
    rw [Nat.mul_comm 2]
    exact Nat.mul_le_mul_left _ grows
  constructor
  · intro extension
    have first : expand _ 2 P = interp u (2 ^ k * b) (entries lde) := by
      apply eq_interp wider
      · exact (expand_degree.mpr low).trans_le (WithBot.coe_le_coe.mpr room)
      · intro i inside
        exact (values i inside).symm
    have second : interp w (2 ^ k) (entries column) = interp u (2 ^ k * b) (entries lde) := by
      apply eq_interp wider
      · exact (interp_degree root _).trans_le
          (WithBot.coe_le_coe.mpr (show 2 ^ k ≤ 2 ^ k * b by omega))
      · intro i inside
        exact (extension.values i inside).symm
    rw [first, second]
  · intro same
    have shown : ∀ i < 2 ^ k * b,
        entries lde i = (interp w (2 ^ k) (entries column)).eval (u ^ i) := by
      intro i inside
      rw [values i inside, same]
    refine ⟨extended.size, shown, ?_⟩
    intro i inside
    have within : b * i < 2 ^ k * b := by
      rw [Nat.mul_comm (2 ^ k)]
      exact Nat.mul_lt_mul_of_pos_left inside (by omega)
    have entry : entries lde (b * i) = entries column i := by
      rw [shown _ within, pow_mul, power, interp_eval root inside]
    exact UInt64.toNat_inj.mp ((entries_eq_iff (getD_reduced extended _) (getD_reduced sound _)).mp
      entry)

/-- For every column and both blowup factors: the extension is that of the column
    exactly where the column is spread out evenly. -/
theorem lde_extends_iff {column : List UInt64} {b : Nat} (some : column ≠ [])
    (reduced : ∀ x ∈ column, x.toNat < FIELD_PRIME_INT) (blowup : b = 4 ∨ b = 8)
    (bounded : (filled column).length * b ≤ 2 ^ 32) :
    ∃ w u lde, getOmega (filled column).length = .ok w ∧
      getOmega ((filled column).length * b) = .ok u ∧ computeLde goldilocks column b = .ok lde ∧
      (Extends w u (filled column) lde (filled column).length b ↔
        Spread w (filled column).length (entries (filled column))) := by
  obtain ⟨k, sound⟩ := filled_sound some reduced
  obtain ⟨s, factor⟩ : ∃ s, b = 2 ^ (s + 1) := by
    rcases blowup with four | eight
    · exact ⟨1, four⟩
    · exact ⟨2, eight⟩
  have product : 2 ^ k * b = 2 ^ (k + s + 1) := by rw [factor, ← pow_add, Nat.add_assoc]
  rw [sound.size, product] at bounded ⊢
  have few : k + s + 1 ≤ 32 := (Nat.pow_le_pow_iff_right (by decide)).mp bounded
  obtain ⟨w, known, _, root⟩ := getOmega_root (show k ≤ 32 by omega)
  obtain ⟨u, wide, _, wider⟩ := getOmega_root few
  obtain ⟨twiddles, made, count, powers⟩ := getTwiddles_powers known
  obtain ⟨twiddlesExtended, madeWide, _, powersWide⟩ := getTwiddles_powers wide
  obtain ⟨coeffs, inverse, kept, coefficients⟩ :=
    coefficients_shown (show k ≤ 32 by omega) root count powers sound
  obtain ⟨extended, values⟩ := extension_shown (Nat.le_add_right k s) wider powersWide kept
    (interp_degree root _) coefficients
  have run : computeLde goldilocks column b =
      .ok (nttForward goldilocks (padded coeffs (2 ^ (k + s + 1))) twiddlesExtended) := by
    rw [computeLde_filled, sound.size, made]
    simp only [bind, Except.bind, inverse, product, madeWide]
  have power : (u : ZMod FIELD_PRIME_INT) ^ b = w := by
    rw [factor]
    exact getOmega_power (by omega) known wide
  refine ⟨w, u, _, known, wide, run, ?_⟩
  rw [spread_iff root]
  rw [← product] at wider extended values ⊢
  have grows : 2 ≤ b := by omega
  exact extends_iff grows root wider power sound extended (interp_degree root _) values

/-- The column 0, 1: its second value is lost. -/
theorem extension_loses_column : filled [0, 1] = [0, 1] ∧
    ∃ lde, computeLde goldilocks [0, 1] 4 = .ok lde ∧ lde.getD (4 * 1) 0 = 0 ∧
      ∀ w u, ¬ Extends w u (filled [0, 1]) lde 2 4 := by
  have run : computeLde goldilocks [0, 1] 4 = .ok [0, 9223231297218936833, 1, 9223512772195647489,
      0, 9223231297218936833, 1, 9223512772195647489] := by decide +kernel
  refine ⟨rfl, _, run, rfl, ?_⟩
  intro w u extension
  exact absurd (extension.kept 1 (by decide)) (by decide)

theorem lde_extends_sample : ∃ w u lde, computeLde goldilocks [5, 5, 5, 5] 8 = .ok lde ∧
    Extends w u [5, 5, 5, 5] lde 4 8 := by
  obtain ⟨w, u, lde, known, _, run, law⟩ := lde_extends_iff (b := 8)
    (show ([5, 5, 5, 5] : List UInt64) ≠ [] by decide) (by simp [FIELD_PRIME_INT]) (.inr rfl)
    (by decide)
  obtain ⟨root, shown, _, order⟩ := getOmega_root (show 2 ≤ 32 by decide)
  cases known.symm.trans shown
  refine ⟨_, _, lde, run, law.mpr (spread_constant order (c := 5) ?_)⟩
  intro i inside
  have each : ∀ i < 4, ([5, 5, 5, 5] : List UInt64).getD i 0 = 5 := by decide
  rw [filled, if_neg (by decide), entries, each i inside]
  rfl

end LowDegreeExtension
