import StatelessEthereum.Fft

/- Inverses modulo a prime, one by one and in a batch (verkle/utils/poly_utils.py):
   the loop ends, and both answers are the same. -/
namespace Inversion
open PolyUtils Fft
variable {modulus : Nat}

/-- The `while` loop of `inv`, without a bound on its turns. -/
inductive InvRun : Int → Int → Int → Int → Int → Prop
  | done {lm hm low high : Int} (last : ¬ 1 < low) : InvRun lm hm low high lm
  | turn {lm hm low high result : Int} (more : 1 < low)
      (rest : InvRun (hm - lm * (high / low)) lm (high - low * (high / low)) low result) :
      InvRun lm hm low high result

/-- The second remainder falls with every turn, so as many turns as it counts are
    enough. -/
theorem invLoop_run (turns : Nat) (lm hm low high : Int) (enough : low ≤ turns) :
    InvRun lm hm low high (invLoop turns lm hm low high) := by
  induction turns generalizing lm hm low high with
  | zero => exact .done (by simp at enough; omega)
  | succ turns ih =>
    rw [invLoop]
    split
    · rename_i more
      have remainder : high - low * (high / low) = high % low := by
        have parts := Int.mul_ediv_add_emod high low
        omega
      have below := Int.emod_lt_of_pos high (by omega : 0 < low)
      refine .turn more (ih _ _ _ _ ?_)
      rw [remainder]
      push_cast at enough
      omega
    · rename_i last
      exact .done last

theorem invRun_unique {lm hm low high result other : Int} (run : InvRun lm hm low high result)
    (run' : InvRun lm hm low high other) : result = other := by
  induction run with
  | done last =>
    cases run' with
    | done => rfl
    | turn more => exact absurd more last
  | turn more _ ih =>
    cases run' with
    | done last => exact absurd more last
    | turn _ rest => exact ih rest

structure Inverts (modulus : Nat) (a b : Int) : Prop where
  positive : 0 ≤ b
  small : b < modulus
  product : a * b % modulus = 1

def InvertsOrZero (modulus : Nat) (a b : Int) : Prop := (a = 0 → b = 0) ∧ (a ≠ 0 → Inverts modulus a b)

section Prime
variable [prime : Fact modulus.Prime]

theorem inverts_of_cast {a b : Int} (reduced : 0 ≤ b ∧ b < modulus) (unit : (a : ZMod modulus) ≠ 0)
    (cast : (b : ZMod modulus) = (a : ZMod modulus)⁻¹) : Inverts modulus a b := by
  refine ⟨reduced.1, reduced.2, ?_⟩
  have one : ((a * b : Int) : ZMod modulus) = ((1 : Int) : ZMod modulus) := by
    rw [Int.cast_mul, cast, mul_inv_cancel₀ unit, Int.cast_one]
  have large : (1 : Int) < modulus := by exact_mod_cast prime.out.one_lt
  have same := (ZMod.intCast_eq_intCast_iff' _ _ modulus).mp one
  rwa [Int.emod_eq_of_lt (by omega) large] at same

/-- A residue in its range is zero in the field only if it is zero. -/
theorem residue_proper {a : Int} (reduced : 0 ≤ a ∧ a < modulus) (zero : (a : ZMod modulus) = 0) :
    a = 0 := by
  have divides := (ZMod.intCast_zmod_eq_zero_iff_dvd a modulus).mp zero
  exact Int.eq_zero_of_dvd_of_nonneg_of_lt reduced.1 reduced.2 divides

theorem inv_inverts {a : Int} (reduced : 0 ≤ a ∧ a < modulus) :
    InvertsOrZero modulus a (inv modulus a) := by
  constructor
  · intro zero
    rw [inv, if_pos zero]
  · intro some
    exact inverts_of_cast (inv_residue a) (fun zero => some (residue_proper reduced zero))
      (inv_cast (residue_proper reduced))

theorem mul_reduced (x y : Int) : 0 ≤ mul modulus x y ∧ mul modulus x y < modulus := by
  have positive : (0 : Int) < modulus := by exact_mod_cast prime.out.pos
  exact ⟨Int.emod_nonneg _ (Int.ne_of_gt positive), Int.emod_lt_of_pos _ positive⟩

/-- What the loop of `multi_inv` puts out, zero where the value is. -/
theorem multiInvLoop_shape (inverse : Int) (values : List Int) (p : Int) :
    List.Forall₂ (fun v w : Int => (v = 0 → w = 0) ∧ 0 ≤ w ∧ w < modulus) values
      (multiInvLoop modulus inverse values (partials modulus p values)).2 := by
  have positive : (0 : Int) < modulus := by exact_mod_cast prime.out.pos
  induction values generalizing p with
  | nil => exact .nil
  | cons v values ih =>
    refine .cons ?_ (ih (mul modulus p (orOne v)))
    change (v = 0 → (if v = 0 then 0 else mul modulus p _) = 0) ∧
      0 ≤ (if v = 0 then 0 else mul modulus p _) ∧ (if v = 0 then 0 else mul modulus p _) < (modulus : Int)
    split
    · rename_i zero
      exact ⟨fun _ => rfl, Int.le_refl _, positive⟩
    · rename_i some
      exact ⟨fun zero => absurd zero some, mul_reduced _ _⟩

theorem inverts_of_casts {values out : List Int} (reduced : Reduced modulus values)
    (shape : List.Forall₂ (fun v w : Int => (v = 0 → w = 0) ∧ 0 ≤ w ∧ w < modulus) values out)
    (casts : out.map (Int.cast : Int → ZMod modulus) =
      values.map fun v : Int => (v : ZMod modulus)⁻¹) :
    List.Forall₂ (InvertsOrZero modulus) values out := by
  induction shape with
  | nil => exact .nil
  | @cons v w values out here _ ih =>
    rw [List.map_cons, List.map_cons, List.cons.injEq] at casts
    refine .cons ⟨here.1, fun some => ?_⟩
      (ih (fun c member => reduced c (List.mem_cons_of_mem _ member)) casts.2)
    have proper := residue_proper (reduced v List.mem_cons_self)
    exact inverts_of_cast here.2 (fun zero => some (proper zero)) casts.1

theorem multiInv_inverts {values : List Int} (reduced : Reduced modulus values) :
    List.Forall₂ (InvertsOrZero modulus) values (multiInv modulus values) :=
  inverts_of_casts reduced (multiInvLoop_shape _ values 1)
    (multiInv_cast fun v member => residue_proper (reduced v member))

/-- Batched inversion is entrywise inversion, and the loop of `inv` ends. -/
theorem inversion_entrywise :
    (∀ a : Int, 0 ≤ a → a < modulus →
      (a ≠ 0 → ∃ lm, InvRun 1 0 (a % modulus) modulus lm ∧ inv modulus a = lm % modulus) ∧
      InvertsOrZero modulus a (inv modulus a)) ∧
    ∀ values : List Int, Reduced modulus values →
      List.Forall₂ (InvertsOrZero modulus) values (multiInv modulus values) := by
  have positive : (0 : Int) < modulus := by exact_mod_cast prime.out.pos
  refine ⟨fun a least most => ⟨fun some => ?_, inv_inverts ⟨least, most⟩⟩,
    fun values reduced => multiInv_inverts reduced⟩
  have below := Int.emod_lt_of_pos a positive
  exact ⟨_, invLoop_run modulus 1 0 (a % modulus) modulus (by omega), by rw [inv, if_neg some]⟩

end Prime

theorem inversion_entrywise_sample : Inverts 7 3 5 ∧
    List.Forall₂ (InvertsOrZero 7) [0, 3, 0, 0, 6, 0] [0, 5, 0, 0, 6, 0] := by
  have prime : Fact (Nat.Prime 7) := ⟨by norm_num⟩
  obtain ⟨single, batch⟩ := @inversion_entrywise 7 prime
  have reduced : Reduced 7 [0, 3, 0, 0, 6, 0] := by
    unfold Reduced
    decide
  exact ⟨(single 3 (by decide) (by decide)).2.2 (by decide), batch _ reduced⟩

end Inversion
