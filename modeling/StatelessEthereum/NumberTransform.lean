import StatelessEthereum.LowDegree
import StatelessEthereum.ButterflyNetwork
import Mathlib.FieldTheory.Finite.Basic
import Mathlib.Tactic.NormNum.Prime

/- What the number theoretic transform computes. The rounds of butterflies are
   the discrete Fourier transform of a mirrored vector; the loop before them
   mirrors one bit too few. -/
namespace NumberTransform
open PythonError PolyUtils FiatShamir LowDegree EvaluationDomain ButterflyNetwork

/- The field. -/

theorem field_factored : FIELD_PRIME_INT - 1 = 2 ^ 32 * 3 * 5 * 17 * 257 * 65537 := by decide

theorem field_factors (q : Nat) (prime : q.Prime) (divides : q ∣ FIELD_PRIME_INT - 1) :
    q ∈ [2, 3, 5, 17, 257, 65537] := by
  have primes : ∀ f ∈ [2, 3, 5, 17, 257, 65537], f.Prime := by norm_num
  have known {f : Nat} (member : f ∈ [2, 3, 5, 17, 257, 65537]) (divisor : q ∣ f) :
      q ∈ [2, 3, 5, 17, 257, 65537] := by
    rwa [(Nat.prime_dvd_prime_iff_eq prime (primes f member)).mp divisor]
  rw [field_factored] at divides
  simp only [prime.dvd_mul] at divides
  rcases divides with ((((h | h) | h) | h) | h) | h
  · exact known (by decide) (prime.dvd_of_dvd_pow h)
  all_goals exact known (by decide) h

theorem field_prime : FIELD_PRIME_INT.Prime :=
  prime_by_powers (by decide) field_factors
    (show powMod GENERATOR (FIELD_PRIME_INT - 1) FIELD_PRIME_INT = 1 by decide +kernel)
    (by decide +kernel)

instance : Fact FIELD_PRIME_INT.Prime := ⟨field_prime⟩

/-- A root of unity for each size that divides the order. -/
theorem getOmega_root {k : Nat} (bounded : k ≤ 32) : ∃ w, getOmega (2 ^ k) = .ok w ∧
    w < FIELD_PRIME_INT ∧ IsPrimitiveRoot (w : ZMod FIELD_PRIME_INT) (2 ^ k) := by
  have base : IsPrimitiveRoot
      ((GENERATOR : ZMod FIELD_PRIME_INT) ^ ((FIELD_PRIME_INT - 1) / 2 ^ 32)) (2 ^ (31 + 1)) := by
    have order := orderOf_eq_prime_pow
      (x := (GENERATOR : ZMod FIELD_PRIME_INT) ^ ((FIELD_PRIME_INT - 1) / 2 ^ 32)) (p := 2) (n := 31)
      (by rw [← pow_mul, ← powMod_one_iff (by decide)]; decide +kernel)
      (by rw [← pow_mul, ← powMod_one_iff (by decide)]; decide +kernel)
    exact IsPrimitiveRoot.iff_orderOf.mpr order
  have parts : (FIELD_PRIME_INT - 1) / 2 ^ k = (FIELD_PRIME_INT - 1) / 2 ^ 32 * 2 ^ (32 - k) := by
    have split : 2 ^ 32 = 2 ^ k * 2 ^ (32 - k) := by rw [← pow_add, Nat.add_sub_cancel' bounded]
    rw [Nat.div_eq_iff_eq_mul_left (Nat.two_pow_pos k)]
    · rw [mul_assoc, mul_comm (2 ^ (32 - k)), ← split]
      decide
    · exact (pow_dvd_pow 2 bounded).trans (by decide)
  refine ⟨_, if_neg (Nat.two_pow_pos k).ne', ?_, ?_⟩
  · rw [powMod_eq]
    exact Nat.mod_lt _ (by decide)
  · rw [powMod_cast, parts, pow_mul]
    apply base.pow (Nat.two_pow_pos _)
    rw [← pow_add, Nat.sub_add_cancel bounded]

/- Vectors of field elements. -/

def entries (l : List UInt64) (j : Nat) : ZMod FIELD_PRIME_INT := ((l.getD j 0).toNat : Nat)

/-- A vector of a size whose entries are reduced. -/
structure Sound (n : Nat) (l : List UInt64) : Prop where
  size : l.length = n
  reduced : ∀ x ∈ l, x.toNat < FIELD_PRIME_INT

theorem reduced_toNat (x : Nat) :
    (UInt64.ofNat (x % FIELD_PRIME_INT)).toNat = x % FIELD_PRIME_INT := by
  have small := Nat.mod_lt x (show 0 < FIELD_PRIME_INT by decide)
  have wide : FIELD_PRIME_INT < 2 ^ 64 := by decide
  rw [UInt64.toNat_ofNat', Nat.mod_eq_of_lt (Nat.lt_trans small wide)]

theorem getD_reduced {n : Nat} {l : List UInt64} (sound : Sound n l) (j : Nat) :
    (l.getD j 0).toNat < FIELD_PRIME_INT := by
  rw [List.getD_eq_getElem?_getD]
  cases held : l[j]? with
  | none => decide
  | some x => exact sound.reduced x (List.mem_of_getElem? held)

/-- Reduced entries are equal where they are equal in the field. -/
theorem entries_eq_iff {x y : Nat} (low : x < FIELD_PRIME_INT) (low' : y < FIELD_PRIME_INT) :
    (x : ZMod FIELD_PRIME_INT) = y ↔ x = y := by
  rw [ZMod.natCast_eq_natCast_iff', Nat.mod_eq_of_lt low, Nat.mod_eq_of_lt low']

theorem sound_ext {n : Nat} {l l' : List UInt64} (sound : Sound n l) (sound' : Sound n l')
    (same : ∀ j < n, entries l j = entries l' j) : l = l' := by
  apply List.ext_getElem (sound.size.trans sound'.size.symm)
  intro j inside inside'
  have entry := (entries_eq_iff (getD_reduced sound j) (getD_reduced sound' j)).mp
    (same j (sound.size ▸ inside))
  rw [List.getD_eq_getElem _ _ inside, List.getD_eq_getElem _ _ inside'] at entry
  exact UInt64.toNat_inj.mp entry

theorem sound_set {n : Nat} {l : List UInt64} (sound : Sound n l) (i : Nat) {x : UInt64}
    (low : x.toNat < FIELD_PRIME_INT) : Sound n (l.set i x) := by
  refine ⟨by rw [List.length_set, sound.size], ?_⟩
  intro y member
  rcases List.mem_or_eq_of_mem_set member with old | rfl
  · exact sound.reduced y old
  · exact low

theorem entries_set {n : Nat} {l : List UInt64} (sound : Sound n l) {i : Nat} (inside : i < n)
    (x : UInt64) (j : Nat) :
    entries (l.set i x) j = if j = i then (x.toNat : ZMod FIELD_PRIME_INT) else entries l j := by
  unfold entries
  simp only [List.getD_eq_getElem?_getD, List.getElem?_set]
  by_cases same : j = i
  · subst same
    simp [sound.size, inside]
  · rw [if_neg (Ne.symm same), if_neg same]

/- Mirrored indices. -/

/-- The loop of the bit reversal has copied the bits below `t`. -/
theorem reverseBits_loop {bits i t : Nat} (few : t ≤ bits) (c : Nat) :
    ((List.range t).foldl (fun j b =>
      if i &&& (1 <<< b) ≠ 0 then j ||| (1 <<< (bits - 1 - b)) else j) 0).testBit c =
        (decide (bits - t ≤ c ∧ c < bits) && i.testBit (bits - 1 - c)) := by
  induction t with
  | zero => simp
  | succ t ih =>
    rw [List.range_succ, List.foldl_append, List.foldl_cons, List.foldl_nil]
    have bit : i &&& (1 <<< t) ≠ 0 ↔ i.testBit t = true := by
      rw [Nat.one_shiftLeft, Nat.and_two_pow]
      cases i.testBit t <;> simp
    have before := ih (by omega)
    by_cases here : c = bits - 1 - t
    · have place : bits - 1 - c = t := by omega
      have inside : bits - (t + 1) ≤ c ∧ c < bits := by omega
      have outside : ¬ (bits - t ≤ c ∧ c < bits) := by omega
      rw [decide_eq_false outside, Bool.false_and] at before
      rw [decide_eq_true inside, place, Bool.true_and]
      split
      · rename_i held
        rw [Nat.testBit_or, before, Nat.one_shiftLeft, here, Nat.testBit_two_pow_self, bit.mp held]
        rfl
      · rename_i unset
        rw [before]
        simpa using fun held => unset (bit.mpr held)
    · have same : (bits - (t + 1) ≤ c ∧ c < bits) ↔ (bits - t ≤ c ∧ c < bits) := by omega
      rw [decide_eq_decide.mpr same, ← before]
      split
      · rw [Nat.testBit_or, Nat.one_shiftLeft, Nat.testBit_two_pow_of_ne (Ne.symm here),
          Bool.or_false]
      · rfl

theorem reverseBits_eq (bits i : Nat) : reverseBits bits i = mirror bits i := by
  apply Nat.eq_of_testBit_eq
  intro c
  rw [reverseBits, reverseBits_loop (Nat.le_refl bits), mirror_testBit]
  simp

/-- Where the loop sends an entry of the lower half, with one bit too few. -/
def partner (k i : Nat) : Nat := if i < 2 ^ (k - 1) then mirror (k - 1) i else i

theorem partner_partner (k i : Nat) : partner k (partner k i) = i := by
  unfold partner
  split
  · rename_i low
    rw [if_pos (mirror_lt _ _), mirror_mirror low]
  · rfl

theorem partner_lt {k i : Nat} (inside : i < 2 ^ k) : partner k i < 2 ^ k := by
  have wide : 2 ^ (k - 1) ≤ 2 ^ k := Nat.pow_le_pow_right (by decide) (by omega)
  unfold partner
  split
  · exact Nat.lt_of_lt_of_le (mirror_lt _ _) wide
  · exact inside

/-- Where the two passes together take an entry from. -/
def displaced (k j : Nat) : Nat :=
  if j % 2 = 0 then j / 2 else 2 ^ (k - 1) + mirror (k - 1) (j / 2)

theorem partner_mirror {k j : Nat} (some : 1 ≤ k) (inside : j < 2 ^ k) :
    partner k (mirror k j) = displaced k j := by
  obtain ⟨m, rfl⟩ : ∃ m, k = m + 1 := ⟨k - 1, by omega⟩
  rw [pow_succ] at inside
  have low := mirror_lt m
  unfold partner displaced
  rw [Nat.add_sub_cancel]
  obtain ⟨i, rfl | rfl⟩ := Nat.even_or_odd' j
  · rw [mirror_even, if_pos (low i), mirror_mirror (by omega), if_pos (by omega)]
    omega
  · rw [mirror_odd, if_neg (by omega), if_neg (by omega), show (2 * i + 1) / 2 = i by omega]

theorem displaced_lt {k j : Nat} (some : 1 ≤ k) (inside : j < 2 ^ k) : displaced k j < 2 ^ k := by
  rw [← partner_mirror some inside]
  exact partner_lt (mirror_lt k j)

/- The loops. -/

theorem swapUp_shows {k : Nat} {l : List UInt64} (sound : Sound (2 ^ k) l) {i : Nat}
    (inside : i < 2 ^ k) : Sound (2 ^ k) (swapUp (k - 1) l i) ∧
      entries (swapUp (k - 1) l i) = exchange (partner k) i (entries l) := by
  unfold swapUp
  simp only [reverseBits_eq]
  have turn : i < mirror (k - 1) i ↔ i < partner k i := by
    have low := mirror_lt (k - 1) i
    unfold partner
    split <;> omega
  by_cases up : i < mirror (k - 1) i
  · have place : mirror (k - 1) i = partner k i := by
      have low := mirror_lt (k - 1) i
      rw [partner, if_pos (by omega)]
    rw [if_pos up, place]
    have there := partner_lt inside
    have first := sound_set sound i (getD_reduced sound (partner k i))
    refine ⟨sound_set first _ (getD_reduced sound i), ?_⟩
    funext j
    rw [entries_set first there, entries_set sound inside, exchange, if_pos (turn.mp up)]
    have other := turn.mp up
    split <;> split <;> first | rfl | omega
  · rw [if_neg up]
    refine ⟨sound, ?_⟩
    funext j
    rw [exchange, if_neg fun more => up (turn.mpr more)]

theorem add_shows (a b : UInt64) : (goldilocks.add a b).toNat < FIELD_PRIME_INT ∧
    ((goldilocks.add a b).toNat : ZMod FIELD_PRIME_INT) = a.toNat + b.toNat := by
  simp only [goldilocks, reduced_toNat]
  exact ⟨Nat.mod_lt _ (by decide), by rw [ZMod.natCast_mod, Nat.cast_add]⟩

theorem sub_shows (a : UInt64) {b : UInt64} (low : b.toNat < FIELD_PRIME_INT) :
    (goldilocks.sub a b).toNat < FIELD_PRIME_INT ∧
    ((goldilocks.sub a b).toNat : ZMod FIELD_PRIME_INT) = a.toNat - b.toNat := by
  simp only [goldilocks, reduced_toNat]
  refine ⟨Nat.mod_lt _ (by decide), ?_⟩
  rw [ZMod.natCast_mod, Nat.cast_sub (by omega), Nat.cast_add, ZMod.natCast_self, add_zero]

theorem mul_shows (a b : UInt64) : (goldilocks.mul a b).toNat < FIELD_PRIME_INT ∧
    ((goldilocks.mul a b).toNat : ZMod FIELD_PRIME_INT) = a.toNat * b.toNat := by
  simp only [goldilocks, reduced_toNat]
  exact ⟨Nat.mod_lt _ (by decide), by rw [ZMod.natCast_mod, Nat.cast_mul]⟩

theorem inv_shows {a : UInt64} (some : (a.toNat : ZMod FIELD_PRIME_INT) ≠ 0) :
    ∃ b, goldilocks.inv a = .ok b ∧ b.toNat < FIELD_PRIME_INT ∧
      (b.toNat : ZMod FIELD_PRIME_INT) = (a.toNat : ZMod FIELD_PRIME_INT)⁻¹ := by
  have nonzero : a ≠ 0 := by
    rintro rfl
    exact some (by simp)
  refine ⟨_, if_neg nonzero, ?_⟩
  rw [powMod_eq, reduced_toNat]
  refine ⟨Nat.mod_lt _ (by decide), ?_⟩
  have fermat := ZMod.pow_card_sub_one_eq_one some
  apply eq_inv_of_mul_eq_one_left
  rw [ZMod.natCast_mod, Nat.cast_pow, ← pow_succ,
    show FIELD_PRIME_INT - 2 + 1 = FIELD_PRIME_INT - 1 by decide, fermat]

theorem butterfly_shows {n : Nat} {l : List UInt64} (sound : Sound n l) {half p : Nat} (w : UInt64)
    (inside : p + half < n) : Sound n (butterfly goldilocks half w l p) ∧
      entries (butterfly goldilocks half w l p) = cross half (w.toNat : ZMod FIELD_PRIME_INT) p
        (entries l) := by
  unfold butterfly
  obtain ⟨scaled, product⟩ := mul_shows w (l.getD (p + half) 0)
  obtain ⟨below, difference⟩ := sub_shows (l.getD p 0) scaled
  obtain ⟨above, sum⟩ := add_shows (l.getD p 0) (goldilocks.mul w (l.getD (p + half) 0))
  have first := sound_set sound (p + half) below
  refine ⟨sound_set first p above, ?_⟩
  funext j
  rw [entries_set first (by omega), entries_set sound inside, cross, sum, difference, product]
  rfl

theorem butterflies_shows {k r : Nat} (few : r < k) {u : ZMod FIELD_PRIME_INT}
    {twiddles : List UInt64} (powers : ∀ i < 2 ^ k, entries twiddles i = u ^ i) {l : List UInt64}
    (sound : Sound (2 ^ k) l) :
    Sound (2 ^ k) (butterflies goldilocks twiddles (2 ^ k) l r) ∧
      entries (butterflies goldilocks twiddles (2 ^ k) l r) =
        round (fun i => u ^ (i * 2 ^ (k - (r + 1)))) (2 ^ (k - (r + 1))) (2 ^ r) (entries l) := by
  have size : 2 ^ k = 2 ^ (k - (r + 1)) * 2 ^ (r + 1) := by
    rw [← pow_add, Nat.sub_add_cancel few]
  have step : 2 ^ k / 2 ^ (r + 1) = 2 ^ (k - (r + 1)) := by
    rw [size, Nat.mul_div_cancel _ (Nat.two_pow_pos _)]
  have half : 2 ^ (r + 1) / 2 = 2 ^ r := by rw [pow_succ, Nat.mul_div_cancel _ (by decide)]
  have blocks : (2 ^ k + 2 ^ (r + 1) - 1) / 2 ^ (r + 1) = 2 ^ (k - (r + 1)) := by
    have some := Nat.two_pow_pos (r + 1)
    rw [Nat.div_eq_iff some, ← size]
    omega
  have looped : butterflies goldilocks twiddles (2 ^ k) l r =
      (turns (2 ^ (k - (r + 1))) (2 ^ r)).foldl (fun l t =>
        butterfly goldilocks (2 ^ r) (twiddles.getD (t.2 * 2 ^ (k - (r + 1))) 0) l
          (t.1 * 2 ^ (r + 1) + t.2)) l := by
    simp only [butterflies, turns, step, half, blocks, List.foldl_flatMap, List.foldl_map]
  rw [looped]
  refine foldl_shows ?_ sound
  rintro ⟨block, i⟩ member l sound
  obtain ⟨inside, low⟩ := turns_member.mp member
  have double : 2 ^ (r + 1) = 2 * 2 ^ r := by rw [pow_succ, mul_comm]
  have filled : block * 2 ^ (r + 1) + i + 2 ^ r < 2 ^ k := by
    have most : (block + 1) * 2 ^ (r + 1) ≤ 2 ^ k := size ▸ Nat.mul_le_mul_right _ inside
    rw [add_mul, one_mul, double] at most
    rw [double]
    omega
  have known : i * 2 ^ (k - (r + 1)) < 2 ^ k := by
    rw [size, mul_comm (2 ^ (k - (r + 1)))]
    exact Nat.mul_lt_mul_of_pos_right (by omega) (Nat.two_pow_pos _)
  have shows := butterfly_shows sound (twiddles.getD (i * 2 ^ (k - (r + 1))) 0) filled
  refine ⟨shows.1, ?_⟩
  simp only [shows.2, ← powers _ known, ← double]
  rfl

/-- The whole loop: the transform of the vector with its entries displaced. -/
theorem nttForward_shows {k : Nat} (some : 1 ≤ k) {u : ZMod FIELD_PRIME_INT}
    (root : IsPrimitiveRoot u (2 ^ k)) {twiddles : List UInt64}
    (powers : ∀ i < 2 ^ k, entries twiddles i = u ^ i) {values : List UInt64}
    (sound : Sound (2 ^ k) values) : Sound (2 ^ k) (nttForward goldilocks values twiddles) ∧
      ∀ i < 2 ^ k, entries (nttForward goldilocks values twiddles) i =
        dft u (2 ^ k) (fun j => entries values (displaced k j)) i := by
  have logged : Nat.log2 (2 ^ k) = k := Nat.log2_two_pow
  have swapped : Sound (2 ^ k) ((List.range (2 ^ k)).foldl (swapUp (k - 1)) values) ∧
      entries ((List.range (2 ^ k)).foldl (swapUp (k - 1)) values) =
        pass (exchange (partner k)) (List.range (2 ^ k)) (entries values) := by
    refine foldl_shows ?_ sound
    intro i member l sound
    exact swapUp_shows sound (List.mem_range.mp member)
  have looped (r : Nat) (few : r ≤ k) :
      Sound (2 ^ k) ((List.range r).foldl (butterflies goldilocks twiddles (2 ^ k))
        ((List.range (2 ^ k)).foldl (swapUp (k - 1)) values)) ∧
      entries ((List.range r).foldl (butterflies goldilocks twiddles (2 ^ k))
        ((List.range (2 ^ k)).foldl (swapUp (k - 1)) values)) =
          rounds u k r (pass (exchange (partner k)) (List.range (2 ^ k)) (entries values)) := by
    induction r with
    | zero => exact swapped
    | succ r ih =>
      obtain ⟨kept, shown⟩ := ih (by omega)
      rw [List.range_succ, List.foldl_append, List.foldl_cons, List.foldl_nil, rounds, ← shown]
      exact butterflies_shows (by omega) powers kept
  unfold nttForward
  simp only [sound.size, bitLengthMinusOne, logged]
  refine ⟨(looped k (Nat.le_refl k)).1, ?_⟩
  intro i inside
  rw [(looped k (Nat.le_refl k)).2, rounds_dft root _ inside]
  apply dft_congr
  intro j within
  rw [exchanged (partner_partner k) _ (mirror_lt k j), partner_mirror some within]

/- The twiddles. -/

theorem powers_entries {w : Nat} (n current : Nat) (low : current < FIELD_PRIME_INT) :
    (powers w n current).length = n ∧ ∀ i < n,
      entries (powers w n current) i = (current : ZMod FIELD_PRIME_INT) * w ^ i := by
  induction n generalizing current with
  | zero => exact ⟨rfl, by simp⟩
  | succ n ih =>
    obtain ⟨size, later⟩ := ih (current * w % FIELD_PRIME_INT) (Nat.mod_lt _ (by decide))
    refine ⟨by rw [powers, List.length_cons, size], ?_⟩
    intro i inside
    cases i with
    | zero =>
      have first := reduced_toNat current
      rw [Nat.mod_eq_of_lt low] at first
      simp [powers, entries, first]
    | succ i =>
      have next := later i (by omega)
      rw [ZMod.natCast_mod, Nat.cast_mul, mul_assoc, ← pow_succ'] at next
      exact next

theorem getTwiddles_powers {k : Nat} {w : Nat} (known : getOmega (2 ^ k) = .ok w) :
    ∃ twiddles, getTwiddles (2 ^ k) = .ok twiddles ∧ twiddles.length = 2 ^ k ∧
      ∀ i < 2 ^ k, entries twiddles i = (w : ZMod FIELD_PRIME_INT) ^ i := by
  obtain ⟨size, shown⟩ := powers_entries (w := w) (2 ^ k) 1 (by decide)
  refine ⟨_, by simp only [getTwiddles, known, bind, Except.bind], size, ?_⟩
  intro i inside
  rw [shown i inside, Nat.cast_one, one_mul]

theorem inverted {twiddles : List UInt64} (units : ∀ i < twiddles.length, entries twiddles i ≠ 0) :
    ∃ inverses, twiddles.mapM goldilocks.inv = .ok inverses ∧
      inverses.length = twiddles.length ∧
      ∀ i < twiddles.length, entries inverses i = (entries twiddles i)⁻¹ := by
  obtain ⟨inverses, run, each⟩ := mapM_ok (f := goldilocks.inv) (l := twiddles)
    (R := fun a b => (b.toNat : ZMod FIELD_PRIME_INT) = (a.toNat : ZMod FIELD_PRIME_INT)⁻¹) (by
      intro a member
      obtain ⟨i, inside, rfl⟩ := List.getElem_of_mem member
      have unit := units i inside
      rw [entries, List.getD_eq_getElem _ _ inside] at unit
      obtain ⟨b, made, _, inverse⟩ := inv_shows unit
      exact ⟨b, made, inverse⟩)
  refine ⟨inverses, run, each.length_eq.symm, ?_⟩
  intro i inside
  have inside' : i < inverses.length := each.length_eq ▸ inside
  rw [entries, entries, List.getD_eq_getElem _ _ inside, List.getD_eq_getElem _ _ inside']
  exact each.get inside inside'

theorem nttInverse_shows {k : Nat} (some : 1 ≤ k) (bounded : k ≤ 32) {w : ZMod FIELD_PRIME_INT}
    (root : IsPrimitiveRoot w (2 ^ k)) {twiddles : List UInt64} (count : twiddles.length = 2 ^ k)
    (powers : ∀ i < 2 ^ k, entries twiddles i = w ^ i) {values : List UInt64}
    (sound : Sound (2 ^ k) values) : ∃ back, nttInverse goldilocks values twiddles = .ok back ∧
      Sound (2 ^ k) back ∧ ∀ j < 2 ^ k, entries back j =
        (interp w (2 ^ k) (fun i => entries values (displaced k i))).coeff j := by
  have unit : w ≠ 0 := root.ne_zero (Nat.two_pow_pos k).ne'
  have units : ∀ i < twiddles.length, entries twiddles i ≠ 0 := by
    intro i inside
    rw [powers i (by omega)]
    exact pow_ne_zero i unit
  obtain ⟨inverses, run, same, inverse⟩ := inverted units
  have inversePowers : ∀ i < 2 ^ k, entries inverses i = w⁻¹ ^ i := by
    intro i inside
    rw [inverse i (by omega), powers i inside, inv_pow]
  obtain ⟨kept, shown⟩ := nttForward_shows some root.inv inversePowers sound
  have small : (UInt64.ofNat values.length).toNat = 2 ^ k := by
    have wide : 2 ^ k < 2 ^ 64 := Nat.pow_lt_pow_right (by decide) (by omega)
    rw [sound.size, UInt64.toNat_ofNat', Nat.mod_eq_of_lt wide]
  obtain ⟨nInv, made, _, scale⟩ := inv_shows (a := UInt64.ofNat values.length) (by
    rw [small]
    exact order_unit root (Nat.two_pow_pos k))
  rw [small] at scale
  refine ⟨_, by simp only [nttInverse, run, made, bind, Except.bind]; rfl, ?_, ?_⟩
  · refine ⟨by rw [List.length_map, kept.size], ?_⟩
    intro x member
    obtain ⟨y, _, rfl⟩ := List.mem_map.mp member
    exact (mul_shows y nInv).1
  · intro j inside
    have held : j < (nttForward goldilocks values inverses).length := by rwa [kept.size]
    rw [interp_coeff root _ inside, ← shown j inside, ← scale, mul_comm]
    simp only [entries, List.getD_eq_getElem?_getD, List.getElem?_map,
      List.getElem?_eq_getElem held, Option.map_some, Option.getD_some, (mul_shows _ _).2]

/- When the results are right. -/

def transformAt (w : Nat) (values : List UInt64) (i : Nat) : Nat :=
  (∑ j ∈ Finset.range values.length, (values.getD j 0).toNat * w ^ (i * j)) % FIELD_PRIME_INT

/-- The transform is the discrete Fourier transform, and is undone. -/
def Exact (w : Nat) (twiddles values : List UInt64) : Prop :=
  let out := nttForward goldilocks values twiddles
  (out.length = values.length ∧
    ∀ i < values.length, (out.getD i 0).toNat = transformAt w values i) ∧
  nttInverse goldilocks out twiddles = .ok values

def Unmoved {α : Type} (k : Nat) (f : Nat → α) : Prop := ∀ j < 2 ^ k, f (displaced k j) = f j

theorem transformAt_cast (w : Nat) {n : Nat} {values : List UInt64} (size : values.length = n)
    (i : Nat) : (transformAt w values i : ZMod FIELD_PRIME_INT) =
      dft (w : ZMod FIELD_PRIME_INT) n (entries values) i := by
  rw [transformAt, ZMod.natCast_mod, size]
  push_cast
  rfl

section Vector
variable {k w : Nat} (some : 1 ≤ k) (bounded : k ≤ 32)
  (root : IsPrimitiveRoot (w : ZMod FIELD_PRIME_INT) (2 ^ k)) {twiddles values : List UInt64}
  (count : twiddles.length = 2 ^ k)
  (powers : ∀ i < 2 ^ k, entries twiddles i = (w : ZMod FIELD_PRIME_INT) ^ i)
  (sound : Sound (2 ^ k) values)
include sound

theorem unmoved_entries : Unmoved k (entries values) ↔
    Unmoved k (fun j => (values.getD j 0).toNat) :=
  forall₂_congr fun j _ => entries_eq_iff (getD_reduced sound _) (getD_reduced sound j)

theorem unmoved_transform : Unmoved k (dft (w : ZMod FIELD_PRIME_INT) (2 ^ k) (entries values)) ↔
    Unmoved k (transformAt w values) := by
  apply forall₂_congr
  intro i _
  have reduced (i : Nat) : transformAt w values i < FIELD_PRIME_INT := Nat.mod_lt _ (by decide)
  rw [← entries_eq_iff (reduced _) (reduced _), transformAt_cast w sound.size,
    transformAt_cast w sound.size]

include some root powers

theorem forward_iff : ((nttForward goldilocks values twiddles).length = values.length ∧
    ∀ i < values.length, ((nttForward goldilocks values twiddles).getD i 0).toNat =
      transformAt w values i) ↔ Unmoved k (entries values) := by
  obtain ⟨kept, shown⟩ := nttForward_shows some root powers sound
  have same (i : Nat) (inside : i < 2 ^ k) :
      ((nttForward goldilocks values twiddles).getD i 0).toNat = transformAt w values i ↔
        dft (w : ZMod FIELD_PRIME_INT) (2 ^ k) (fun j => entries values (displaced k j)) i =
          dft (w : ZMod FIELD_PRIME_INT) (2 ^ k) (entries values) i := by
    rw [← shown i inside, ← transformAt_cast w sound.size]
    exact (entries_eq_iff (getD_reduced kept i) (Nat.mod_lt _ (by decide))).symm
  rw [sound.size]
  constructor
  · rintro ⟨_, values⟩ j inside
    have moved := interp_congr root fun i inside => (same i inside).mp (values i inside)
    have entry := congrArg (fun f => f.coeff j) moved
    simpa only [interp_dft root _ inside] using entry
  · intro unmoved
    refine ⟨kept.size, fun i inside => (same i inside).mpr ?_⟩
    exact dft_congr unmoved i

include bounded count

/-- For one vector: the entries and those of its transform hide the displacement. -/
theorem exact_iff : Exact w twiddles values ↔
    Unmoved k (fun j => (values.getD j 0).toNat) ∧ Unmoved k (transformAt w values) := by
  obtain ⟨kept, shown⟩ := nttForward_shows some root powers sound
  obtain ⟨back, run, keptBack, shownBack⟩ := nttInverse_shows some bounded root count powers kept
  simp only [Exact]
  rw [forward_iff some root powers sound, ← unmoved_entries sound, ← unmoved_transform sound]
  apply and_congr_right
  intro unmoved
  have forward (i : Nat) (inside : i < 2 ^ k) : entries (nttForward goldilocks values twiddles) i =
      dft (w : ZMod FIELD_PRIME_INT) (2 ^ k) (entries values) i := by
    rw [shown i inside, dft_congr unmoved]
  have inverse : nttInverse goldilocks (nttForward goldilocks values twiddles) twiddles =
      .ok values ↔ ∀ j < 2 ^ k, (interp (w : ZMod FIELD_PRIME_INT) (2 ^ k) fun i =>
        dft w (2 ^ k) (entries values) (displaced k i)).coeff j = entries values j := by
    rw [run, Except.ok.injEq]
    have lifted : ∀ j < 2 ^ k, entries back j = (interp (w : ZMod FIELD_PRIME_INT) (2 ^ k) fun i =>
        dft w (2 ^ k) (entries values) (displaced k i)).coeff j := by
      intro j inside
      rw [shownBack j inside]
      exact congrArg (fun f => f.coeff j)
        (interp_congr root fun i within => forward _ (displaced_lt some within))
    constructor
    · rintro rfl j inside
      exact (lifted j inside).symm
    · intro same
      exact sound_ext keptBack sound fun j inside => (lifted j inside).trans (same j inside)
  rw [inverse]
  constructor
  · intro same i inside
    rw [← dft_congr same i, dft_interp root _ inside]
  · intro hidden j inside
    rw [interp_congr root hidden, interp_dft root _ inside]

end Vector

theorem displaced_one (j : Nat) (inside : j < 2 ^ 1) : displaced 1 j = j := by
  interval_cases j <;> decide

/-- The transform of a size. One vector is transformed as it should be, and back,
    exactly if the displacement is seen neither in it nor in its transform; all
    vectors of a size are for the size two alone. -/
theorem transform_exact_iff {k : Nat} (some : 1 ≤ k) (bounded : k ≤ 32) :
    ∃ w twiddles, getOmega (2 ^ k) = .ok w ∧ getTwiddles (2 ^ k) = .ok twiddles ∧
      (∀ values, Sound (2 ^ k) values → (Exact w twiddles values ↔
        Unmoved k (fun j => (values.getD j 0).toNat) ∧ Unmoved k (transformAt w values))) ∧
      ((∀ values, Sound (2 ^ k) values → Exact w twiddles values) ↔ k = 1) := by
  obtain ⟨w, known, _, root⟩ := getOmega_root bounded
  obtain ⟨twiddles, made, count, powers⟩ := getTwiddles_powers known
  have each (values : List UInt64) (sound : Sound (2 ^ k) values) :=
    exact_iff some bounded root count powers sound
  refine ⟨w, twiddles, known, made, each, ?_⟩
  constructor
  · intro all
    by_contra more
    have wide : 2 ^ 2 ≤ 2 ^ k := Nat.pow_le_pow_right (by decide) (by omega)
    -- the entry 1 of a vector is read in the place of the entry 2
    have sound : Sound (2 ^ k) ((List.replicate (2 ^ k) 0).set 2 1) := by
      refine ⟨by simp, ?_⟩
      intro x member
      rcases List.mem_or_eq_of_mem_set member with old | rfl
      · rw [List.eq_of_mem_replicate old]
        decide
      · decide
    have seen := ((each _ sound).mp (all _ sound)).1 2 (by omega)
    have apart : displaced k 2 = 1 := rfl
    simp only [apart, List.getD_eq_getElem?_getD] at seen
    rw [List.getElem?_set_ne (by decide), List.getElem?_set_self (by simp; omega),
      List.getElem?_replicate, if_pos (by omega)] at seen
    exact absurd seen (by decide)
  · rintro rfl values sound
    rw [each values sound]
    constructor
    · intro j inside
      rw [displaced_one j inside]
    · intro j inside
      rw [displaced_one j inside]

theorem transform_exact_sample : ∃ w twiddles, getOmega (2 ^ 3) = .ok w ∧
    getTwiddles (2 ^ 3) = .ok twiddles ∧
    (Exact w twiddles [5, 2, 2, 2, 2, 2, 2, 2] ↔
      Unmoved 3 (fun j => (([5, 2, 2, 2, 2, 2, 2, 2] : List UInt64).getD j 0).toNat) ∧
      Unmoved 3 (transformAt w [5, 2, 2, 2, 2, 2, 2, 2])) := by
  obtain ⟨w, twiddles, known, made, each, _⟩ :=
    transform_exact_iff (show 1 ≤ 3 by decide) (by decide)
  exact ⟨w, twiddles, known, made, each _ ⟨by decide, by simp [FIELD_PRIME_INT]⟩⟩

/-- The size four: the second power of the root stands in the place of the first. -/
theorem transform_displaced : getOmega 4 = .ok 281474976710656 ∧
    getTwiddles 4 = .ok [1, 281474976710656, 18446744069414584320, 18446462594437873665] ∧
    nttForward goldilocks [0, 1, 0, 0]
      [1, 281474976710656, 18446744069414584320, 18446462594437873665] =
        [1, 18446744069414584320, 1, 18446744069414584320] ∧
    transformAt 281474976710656 [0, 1, 0, 0] 1 = 281474976710656 := by
  decide +kernel

end NumberTransform
