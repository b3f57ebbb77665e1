import StatelessEthereum.LowDegreeExtension
import StatelessEthereum.CoefficientLists

/- Products of polynomials by the number theoretic transform (zkSTARK/fft.py). The
   forward transforms evaluate at squares, and the inverse one reads the squares as if
   they were all the places, so a product is found only where its values repeat. -/
namespace TransformProducts
open Polynomial CoefficientLists EvaluationDomain NumberTransform LowDegreeExtension
open ButterflyNetwork PythonError PolyUtils FiatShamir LowDegree

section Operations
variable (ops : FieldOps)

/-- Horner's rule; the last coefficient is where it starts. -/
def polynomialEvalAt : List UInt64 → UInt64 → UInt64
  | [], _ => 0
  | [c], _ => c
  | c :: d :: coeffs, point =>
    ops.add (ops.mul (polynomialEvalAt (d :: coeffs) point) point) c

/-- A factor that does not fit the transform's size is one beside an empty factor. -/
def polynomialMultiply (a b : List UInt64) : Except PyError (List UInt64) := do
  let n := a.length + b.length - 1
  let fftSize := n.nextPowerOfTwo
  if fftSize < a.length ∨ fftSize < b.length then
    .error (.valueError ("could not broadcast input array from shape (" ++
      toString (max a.length b.length) ++ ",) into shape (" ++ toString fftSize ++ ",)"))
  else
    let twiddles ← getTwiddles fftSize
    let aEval := nttForward ops (padded a fftSize) twiddles
    let bEval := nttForward ops (padded b fftSize) twiddles
    let cEval := List.zipWith ops.mul aEval bEval
    let cCoeffs ← nttInverse ops cEval twiddles
    .ok (cCoeffs.take n)

end Operations

noncomputable def polyOf (coeffs : List UInt64) : (ZMod FIELD_PRIME_INT)[X] :=
  poly (coeffs.map fun c => (c.toNat : ZMod FIELD_PRIME_INT))

/-- `c` takes the product of the values of `a` and `b`, at every point of the field. -/
def Multiplies (a b c : List UInt64) : Prop := ∀ x : UInt64, x.toNat < FIELD_PRIME_INT →
  polynomialEvalAt goldilocks c x =
    goldilocks.mul (polynomialEvalAt goldilocks a x) (polynomialEvalAt goldilocks b x)

theorem polyOf_coeff (l : List UInt64) (j : Nat) : (polyOf l).coeff j = entries l j := by
  rw [polyOf, poly_coeff, entries]
  simp only [List.getD_eq_getElem?_getD, List.getElem?_map]
  cases l[j]? with
  | none => simp
  | some c => rfl

theorem polyOf_degree (l : List UInt64) : (polyOf l).degree < l.length := by
  have bound := poly_degree (l.map fun c => (c.toNat : ZMod FIELD_PRIME_INT))
  rwa [List.length_map] at bound

/-- Horner's rule gives the value of the polynomial. -/
theorem eval_shows {l : List UInt64} (reduced : ∀ c ∈ l, c.toNat < FIELD_PRIME_INT) (x : UInt64) :
    (polynomialEvalAt goldilocks l x).toNat < FIELD_PRIME_INT ∧
      ((polynomialEvalAt goldilocks l x).toNat : ZMod FIELD_PRIME_INT) =
        (polyOf l).eval (x.toNat : ZMod FIELD_PRIME_INT) := by
  induction l with
  | nil =>
    exact ⟨show (0 : UInt64).toNat < FIELD_PRIME_INT by decide, by simp [polynomialEvalAt, polyOf]⟩
  | cons c l ih =>
    have first := reduced c List.mem_cons_self
    cases l with
    | nil => exact ⟨first, by simp [polynomialEvalAt, polyOf, poly_cons]⟩
    | cons d l =>
      obtain ⟨_, value⟩ := ih fun e member => reduced e (List.mem_cons_of_mem _ member)
      obtain ⟨low, sum⟩ := add_shows
        (goldilocks.mul (polynomialEvalAt goldilocks (d :: l) x) x) c
      refine ⟨low, ?_⟩
      have split : (polyOf (c :: d :: l)).eval (x.toNat : ZMod FIELD_PRIME_INT) =
          c.toNat + x.toNat * (polyOf (d :: l)).eval (x.toNat : ZMod FIELD_PRIME_INT) := by
        rw [polyOf, List.map_cons, poly_cons, eval_add, eval_C, eval_mul, eval_X, ← polyOf]
      rw [polynomialEvalAt, sum, (mul_shows _ _).2, value, split]
      ring

/-- Values at all points are the polynomial: the field has more points than it has
    coefficients. -/
theorem multiplies_iff {a b c : List UInt64} (reduced : ∀ x ∈ a, x.toNat < FIELD_PRIME_INT)
    (reduced' : ∀ x ∈ b, x.toNat < FIELD_PRIME_INT) (short : c.length < FIELD_PRIME_INT)
    (reduced'' : ∀ x ∈ c, x.toNat < FIELD_PRIME_INT)
    (room : (polyOf a * polyOf b).degree < (FIELD_PRIME_INT : Nat)) :
    Multiplies a b c ↔ polyOf c = polyOf a * polyOf b := by
  have each (x : UInt64) : polynomialEvalAt goldilocks c x =
      goldilocks.mul (polynomialEvalAt goldilocks a x) (polynomialEvalAt goldilocks b x) ↔
        (polyOf c).eval (x.toNat : ZMod FIELD_PRIME_INT) =
          (polyOf a * polyOf b).eval (x.toNat : ZMod FIELD_PRIME_INT) := by
    obtain ⟨low, value⟩ := eval_shows reduced'' x
    obtain ⟨small, product⟩ := mul_shows (polynomialEvalAt goldilocks a x)
      (polynomialEvalAt goldilocks b x)
    rw [← UInt64.toNat_inj, ← entries_eq_iff low small, value, product, (eval_shows reduced x).2,
      (eval_shows reduced' x).2, eval_mul]
  constructor
  · intro multiplies
    have cardinal : (Finset.univ : Finset (ZMod FIELD_PRIME_INT)).card = FIELD_PRIME_INT := by
      rw [Finset.card_univ, ZMod.card]
    apply eq_of_degrees_lt_of_eval_finset_eq Finset.univ
    · rw [cardinal]
      exact (polyOf_degree c).trans (WithBot.coe_lt_coe.mpr short)
    · rw [cardinal]
      exact room
    · intro z _
      have below := ZMod.val_lt z
      have wide : FIELD_PRIME_INT < 2 ^ 64 := by decide
      have back : (UInt64.ofNat z.val).toNat = z.val := by
        rw [UInt64.toNat_ofNat', Nat.mod_eq_of_lt (Nat.lt_trans below wide)]
      have same := (each (UInt64.ofNat z.val)).mp (multiplies _ (back.trans_lt below))
      rwa [back, ZMod.natCast_zmod_val] at same
  · intro same x _
    rw [each, same]

/- The transforms. -/

theorem padded_again {a : List UInt64} {m n : Nat} (fits : a.length ≤ m) (wider : m ≤ n) :
    padded (padded a m) n = padded a n := by
  have size : (padded a m).length = m := by
    rw [padded, List.length_append, List.length_replicate, Nat.add_sub_cancel' fits]
  rw [padded, size, padded, List.append_assoc, List.replicate_append_replicate, padded]
  congr 2
  omega

section Sizes
variable {r : Nat} {w : ZMod FIELD_PRIME_INT} (root : IsPrimitiveRoot w (2 ^ (r + 1)))
include root

/-- Half of the size is padding, so the values are those at the squares. -/
theorem forward_shown {twiddles : List UInt64}
    (powers : ∀ i < 2 ^ (r + 1), entries twiddles i = w ^ i) {a : List UInt64}
    (reduced : ∀ x ∈ a, x.toNat < FIELD_PRIME_INT) (fits : a.length ≤ 2 ^ r) :
    Sound (2 ^ (r + 1)) (nttForward goldilocks (padded a (2 ^ (r + 1))) twiddles) ∧
      ∀ i < 2 ^ (r + 1), entries (nttForward goldilocks (padded a (2 ^ (r + 1))) twiddles) i =
        (polyOf a).eval (w ^ (2 * i)) := by
  have sound : Sound a.length a := ⟨rfl, reduced⟩
  have low : (polyOf a).degree < (2 ^ r : Nat) :=
    (polyOf_degree a).trans_le (WithBot.coe_le_coe.mpr fits)
  have known : ∀ j < 2 ^ r, entries (padded a (2 ^ r)) j = (polyOf a).coeff j := by
    intro j _
    rw [padded_entries sound]
    split
    · exact (polyOf_coeff a j).symm
    · rename_i beyond
      exact (coeff_eq_zero_of_degree_lt ((polyOf_degree a).trans_le
        (WithBot.coe_le_coe.mpr (Nat.not_lt.mp beyond)))).symm
  obtain ⟨kept, shown⟩ := extension_shown (Nat.le_refl r) root powers (padded_sound sound fits)
    low known
  have wider : 2 ^ r ≤ 2 ^ (r + 1) := Nat.pow_le_pow_right (by decide) (Nat.le_succ r)
  rw [padded_again fits wider] at kept shown
  refine ⟨kept, ?_⟩
  intro i inside
  rw [shown i inside, expand_eval, ← pow_mul, Nat.mul_comm]

omit root in
theorem products_shown {n : Nat} {as bs : List UInt64} (sound : Sound n as) (sound' : Sound n bs) :
    Sound n (List.zipWith goldilocks.mul as bs) ∧
      ∀ i < n, entries (List.zipWith goldilocks.mul as bs) i = entries as i * entries bs i := by
  refine ⟨⟨?_, ?_⟩, ?_⟩
  · rw [List.length_zipWith, sound.size, sound'.size, Nat.min_self]
  · intro x member
    obtain ⟨i, inside, rfl⟩ := List.mem_iff_getElem.mp member
    rw [List.getElem_zipWith]
    exact (mul_shows _ _).1
  · intro i inside
    have held : i < as.length := by rw [sound.size]; exact inside
    have held' : i < bs.length := by rw [sound'.size]; exact inside
    unfold entries
    rw [← (mul_shows _ _).2]
    simp [List.getD_eq_getElem?_getD, held, held']

/-- The values at the odd places are those at the squares that the reversed index names. -/
def Repeats (w : ZMod FIELD_PRIME_INT) (n : Nat) (Q : (ZMod FIELD_PRIME_INT)[X]) : Prop :=
  ∀ i < n / 2, Q.eval (w ^ (2 * i + 1)) =
    Q.eval (w ^ (2 * reverseBits (bitLengthMinusOne n) i))

theorem odd_square (i : Nat) :
    w ^ (2 * displaced (r + 1) (2 * i + 1)) = w ^ (2 * mirror r i) := by
  have place : displaced (r + 1) (2 * i + 1) = 2 ^ r + mirror r i := by
    rw [displaced, if_neg (by omega), Nat.add_sub_cancel]
    congr 2
    omega
  rw [place, Nat.mul_add, ← pow_succ', pow_add, root.pow_eq_one, one_mul]

omit root in
theorem even_square (i : Nat) : displaced (r + 1) (2 * i) = i := by
  rw [displaced, if_pos (Nat.mul_mod_right 2 i), Nat.mul_div_cancel_left i Nat.two_pos]

/-- What the inverse transform makes of the values at the squares. -/
theorem interp_squares_iff {Q : (ZMod FIELD_PRIME_INT)[X]} (low : Q.degree < (2 ^ (r + 1) : Nat)) :
    interp w (2 ^ (r + 1)) (fun i => Q.eval (w ^ (2 * displaced (r + 1) i))) = Q ↔
      Repeats w (2 ^ (r + 1)) Q := by
  have double : 2 ^ (r + 1) = 2 * 2 ^ r := pow_succ' 2 r
  have half : 2 ^ (r + 1) / 2 = 2 ^ r := by rw [double, Nat.mul_div_cancel_left _ Nat.two_pos]
  have bits : bitLengthMinusOne (2 ^ (r + 1)) = r := by
    rw [bitLengthMinusOne, Nat.log2_two_pow, Nat.add_sub_cancel]
  simp only [Repeats, half, bits, reverseBits_eq]
  constructor
  · intro same i inside
    have value := interp_eval root (show 2 * i + 1 < 2 ^ (r + 1) by omega)
      (fun i => Q.eval (w ^ (2 * displaced (r + 1) i)))
    rwa [same, odd_square root] at value
  · intro repeated
    symm
    apply eq_interp root low
    intro i inside
    obtain ⟨j, rfl | rfl⟩ := Nat.even_or_odd' i
    · rw [even_square]
    · rw [odd_square root, repeated j (by omega)]

/-- Coefficients that are left out cannot differ alone. -/
theorem agree_of_first {n : Nat} (half : 2 ^ r ≤ n) {P Q : (ZMod FIELD_PRIME_INT)[X]}
    (low : P.degree < (2 ^ (r + 1) : Nat)) (low' : Q.degree < (2 ^ (r + 1) : Nat))
    (even : ∀ i < 2 ^ r, P.eval (w ^ (2 * i)) = Q.eval (w ^ (2 * i)))
    (first : ∀ j < n, P.coeff j = Q.coeff j) : P = Q := by
  have square : IsPrimitiveRoot (w ^ 2) (2 ^ r) := root.pow (Nat.two_pow_pos _) (pow_succ' 2 r)
  obtain ⟨R, factored⟩ : X ^ 2 ^ r ∣ P - Q := by
    rw [X_pow_dvd_iff]
    intro j inside
    rw [coeff_sub, first j (Nat.lt_of_lt_of_le inside half), sub_self]
  have short : R.degree < (2 ^ r : Nat) := by
    rw [degree_lt_iff_coeff_zero]
    intro j beyond
    have double : 2 ^ (r + 1) = 2 * 2 ^ r := pow_succ' 2 r
    have high : 2 ^ (r + 1) ≤ j + 2 ^ r := by omega
    have coefficient := coeff_X_pow_mul R (2 ^ r) j
    rw [← coefficient, ← factored, coeff_sub, (degree_lt_iff_coeff_zero _ _).mp low _ high,
      (degree_lt_iff_coeff_zero _ _).mp low' _ high, sub_zero]
  have vanishes : R = interp (w ^ 2) (2 ^ r) (fun _ => 0) := by
    apply eq_interp square short
    intro i inside
    have turn : (w ^ (2 * i)) ^ 2 ^ r = 1 := by
      rw [pow_mul, ← pow_mul, Nat.mul_comm, pow_mul, square.pow_eq_one, one_pow]
    have value : (P - Q).eval (w ^ (2 * i)) = 0 := by rw [eval_sub, even i inside, sub_self]
    rw [factored, eval_mul, eval_pow, eval_X, turn, one_mul] at value
    rw [← pow_mul]
    exact value
  have none : (0 : (ZMod FIELD_PRIME_INT)[X]) = interp (w ^ 2) (2 ^ r) (fun _ => 0) := by
    apply eq_interp square
    · rw [degree_zero]
      exact WithBot.bot_lt_coe _
    · intro i _
      rw [eval_zero]
  rw [vanishes, ← none, mul_zero] at factored
  exact sub_eq_zero.mp factored

end Sizes

/- The size of the transform. -/
section Cover
open private Nat.nextPowerOfTwo.go from Init.Data.Nat.Power2.Basic

theorem tight_go {n power : Nat} (positive : power > 0) (small : power = 1 ∨ power < 2 * n) :
    Nat.nextPowerOfTwo.go n power positive = 1 ∨
      Nat.nextPowerOfTwo.go n power positive < 2 * n := by
  induction left : n - power using Nat.strong_induction_on generalizing power with
  | _ left ih =>
    rw [Nat.nextPowerOfTwo.go]
    split
    · exact ih (n - power * 2) (by omega) _ (by omega) rfl
    · exact small

/-- The next power of two is less than twice the number. -/
theorem tight (n : Nat) : n.nextPowerOfTwo = 1 ∨ n.nextPowerOfTwo < 2 * n :=
  tight_go (by decide) (.inl rfl)

end Cover

theorem entries_take {l : List UInt64} {n j : Nat} (inside : j < n) :
    entries (l.take n) j = entries l j := by
  unfold entries
  rw [List.getD_eq_getElem?_getD, List.getElem?_take_of_lt inside, ← List.getD_eq_getElem?_getD]

theorem product_degree {a b : List UInt64} (some : a ≠ []) (some' : b ≠ []) :
    (polyOf a * polyOf b).degree < (a.length + b.length - 1 : Nat) := by
  have positive := List.length_pos_iff.mpr some
  have positive' := List.length_pos_iff.mpr some'
  have bound {l : List UInt64} (held : 0 < l.length) : (polyOf l).natDegree ≤ l.length - 1 := by
    rw [natDegree_le_iff_coeff_eq_zero]
    intro j beyond
    exact (degree_lt_iff_coeff_zero _ _).mp (polyOf_degree l) j (by omega)
  have total := natDegree_mul_le_of_le (bound positive) (bound positive')
  rw [degree_lt_iff_coeff_zero]
  intro j beyond
  exact coeff_eq_zero_of_natDegree_lt (by omega)

theorem half_filled {a b : List UInt64} (some : a ≠ [])
    (fits : a.length ≤ (a.length + b.length - 1).nextPowerOfTwo / 2)
    (bounded : a.length + b.length - 1 ≤ 2 ^ 32) :
    ∃ r, (a.length + b.length - 1).nextPowerOfTwo = 2 ^ (r + 1) ∧ r + 1 ≤ 32 ∧
      2 ^ r ≤ a.length + b.length - 1 ∧ b ≠ [] := by
  obtain ⟨k, power⟩ := Nat.isPowerOfTwo_nextPowerOfTwo (a.length + b.length - 1)
  have close := tight (a.length + b.length - 1)
  have positive := List.length_pos_iff.mpr some
  rw [power] at fits close ⊢
  cases k with
  | zero =>
    have none : a.length ≤ 0 := fits
    omega
  | succ r =>
    have double : 2 ^ (r + 1) = 2 * 2 ^ r := pow_succ' 2 r
    have below : 2 ^ r < 2 ^ 32 := by omega
    refine ⟨r, rfl, (Nat.pow_lt_pow_iff_right (by decide)).mp below, by omega, ?_⟩
    rintro rfl
    simp only [List.length_nil] at close
    omega

/-- What is computed: the polynomial that takes the product's values at the squares in
    the order in which the inverse transform reads them. -/
theorem multiply_shown {r : Nat} (few : r + 1 ≤ 32) {a b : List UInt64}
    (reduced : ∀ x ∈ a, x.toNat < FIELD_PRIME_INT)
    (reduced' : ∀ x ∈ b, x.toNat < FIELD_PRIME_INT)
    (fits : a.length ≤ 2 ^ r) (fits' : b.length ≤ 2 ^ r)
    (sized : (a.length + b.length - 1).nextPowerOfTwo = 2 ^ (r + 1)) :
    ∃ (w : Nat) (back : List UInt64), getOmega (2 ^ (r + 1)) = .ok w ∧
      IsPrimitiveRoot (w : ZMod FIELD_PRIME_INT) (2 ^ (r + 1)) ∧
      polynomialMultiply goldilocks a b = .ok (back.take (a.length + b.length - 1)) ∧
      Sound (2 ^ (r + 1)) back ∧ ∀ j < 2 ^ (r + 1), entries back j =
        (interp (w : ZMod FIELD_PRIME_INT) (2 ^ (r + 1)) fun i => (polyOf a * polyOf b).eval
          ((w : ZMod FIELD_PRIME_INT) ^ (2 * displaced (r + 1) i))).coeff j := by
  obtain ⟨w, known, _, root⟩ := getOmega_root few
  obtain ⟨twiddles, made, count, powers⟩ := getTwiddles_powers known
  obtain ⟨kept, shown⟩ := forward_shown root powers reduced fits
  obtain ⟨kept', shown'⟩ := forward_shown root powers reduced' fits'
  obtain ⟨sound, values⟩ := products_shown kept kept'
  obtain ⟨back, inverse, held, coefficients⟩ := coefficients_shown few root count powers sound
  have wider : 2 ^ r ≤ 2 ^ (r + 1) := Nat.pow_le_pow_right (by decide) (Nat.le_succ r)
  have whole : ¬(2 ^ (r + 1) < a.length ∨ 2 ^ (r + 1) < b.length) := by omega
  refine ⟨w, back, known, root, ?_, held, ?_⟩
  · simp only [polynomialMultiply, sized, if_neg whole, made, inverse, bind, Except.bind]
  · intro j inside
    rw [coefficients j inside]
    congr 1
    apply interp_congr root
    intro i within
    have place := displaced_inside within
    rw [values _ place, shown _ place, shown' _ place, eval_mul]

/-- For factors that fit half of the transform, as any two of one length do: the
    result is their product exactly where the product's values repeat. -/
theorem product_iff {a b : List UInt64} (some : a ≠ [])
    (reduced : ∀ x ∈ a, x.toNat < FIELD_PRIME_INT)
    (reduced' : ∀ x ∈ b, x.toNat < FIELD_PRIME_INT)
    (fits : a.length ≤ (a.length + b.length - 1).nextPowerOfTwo / 2)
    (fits' : b.length ≤ (a.length + b.length - 1).nextPowerOfTwo / 2)
    (bounded : a.length + b.length - 1 ≤ 2 ^ 32) :
    ∃ w c, getOmega (a.length + b.length - 1).nextPowerOfTwo = .ok w ∧
      polynomialMultiply goldilocks a b = .ok c ∧ c.length = a.length + b.length - 1 ∧
      (Multiplies a b c ↔
        Repeats w (a.length + b.length - 1).nextPowerOfTwo (polyOf a * polyOf b)) := by
  obtain ⟨r, sized, few, half, some'⟩ := half_filled some fits bounded
  have enough := covered (a.length + b.length - 1)
  have middle : 2 ^ (r + 1) / 2 = 2 ^ r := by
    rw [pow_succ, Nat.mul_div_cancel _ Nat.two_pos]
  rw [sized, middle] at fits fits'
  obtain ⟨w, back, known, root, run, held, coefficients⟩ :=
    multiply_shown few reduced reduced' fits fits' sized
  rw [sized] at enough ⊢
  have size : (back.take (a.length + b.length - 1)).length = a.length + b.length - 1 := by
    rw [List.length_take, held.size, Nat.min_eq_left enough]
  have low := product_degree some some'
  have wide : (polyOf a * polyOf b).degree < (2 ^ (r + 1) : Nat) :=
    low.trans_le (WithBot.coe_le_coe.mpr enough)
  have prime : a.length + b.length - 1 < FIELD_PRIME_INT := by
    have large : 2 ^ 32 < FIELD_PRIME_INT := by decide
    omega
  refine ⟨w, _, known, run, size, ?_⟩
  rw [multiplies_iff reduced reduced' (by rwa [size])
    (fun x member => held.reduced x (List.mem_of_mem_take member))
    (low.trans (WithBot.coe_lt_coe.mpr prime)), ← interp_squares_iff root wide]
  constructor
  · intro same
    apply agree_of_first root half (interp_degree root _) wide
    · intro i inside
      have place : 2 * i < 2 ^ (r + 1) := by
        rw [pow_succ']
        exact Nat.mul_lt_mul_of_pos_left inside Nat.two_pos
      rw [interp_eval root place, even_square]
    · intro j inside
      have entry : (polyOf (back.take (a.length + b.length - 1))).coeff j =
          (polyOf a * polyOf b).coeff j := by rw [same]
      rw [← entry, polyOf_coeff, entries_take inside, coefficients j (inside.trans_le enough)]
  · intro same
    ext j
    rcases Nat.lt_or_ge j (a.length + b.length - 1) with inside | beyond
    · rw [polyOf_coeff, entries_take inside, coefficients j (inside.trans_le enough), same]
    · rw [(degree_lt_iff_coeff_zero _ _).mp low j beyond]
      exact (degree_lt_iff_coeff_zero _ _).mp (polyOf_degree _) j (by rwa [size])

/-- A constant product repeats everywhere. The square of `X + 1` does not. -/
theorem product_iff_sample : (∃ c, polynomialMultiply goldilocks [2, 0] [3, 0] = .ok c ∧
      Multiplies [2, 0] [3, 0] c) ∧
    ∃ c, polynomialMultiply goldilocks [1, 1] [1, 1] = .ok c ∧ ¬ Multiplies [1, 1] [1, 1] c := by
  constructor
  · have reduced : ∀ x ∈ ([2, 0] : List UInt64), x.toNat < FIELD_PRIME_INT := by
      simp [FIELD_PRIME_INT]
    have reduced' : ∀ x ∈ ([3, 0] : List UInt64), x.toNat < FIELD_PRIME_INT := by
      simp [FIELD_PRIME_INT]
    obtain ⟨w, c, _, run, _, law⟩ := product_iff (by decide) reduced reduced'
      (by decide +kernel) (by decide +kernel) (by decide)
    refine ⟨c, run, law.mpr ?_⟩
    intro i _
    have constant : polyOf [2, 0] * polyOf [3, 0] = C 2 * C 3 := by
      simp [polyOf, poly_cons]
    rw [constant, ← C_mul, eval_C, eval_C]
  · have run : polynomialMultiply goldilocks [1, 1] [1, 1] =
        .ok [2, 18446462594437873666, 0] := by decide +kernel
    refine ⟨_, run, ?_⟩
    intro multiplies
    exact absurd (multiplies 0 (by decide)) (by decide)

end TransformProducts
