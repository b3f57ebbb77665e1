import StatelessEthereum.Fft
import Mathlib.Tactic.NormNum.Prime

/- The trusted setup of the Verkle tree and its tables (setups/verkle_kzg_setup.py).
   The curve library is a parameter. -/
namespace KzgSetup
open PythonError PolyUtils EvaluationDomain Fft

/-- `b.curve_order` -/
def CURVE_ORDER : Nat :=
  52435875175126190479447740508185965837690552500527637822603658699938581184513

/-- What the code takes from `optimized_bls12_381`. A point is a pair of
    coordinates; `lift` puts `b.FQ.one()` behind them. -/
structure Curve (Point G1 G2 FQ12 : Type) where
  generator : G1
  Z1 : G1
  add : G1 → G1 → G1
  multiply : G1 → Nat → G1
  normalize : G1 → Point
  lift : Point → G1
  generator₂ : G2
  add₂ : G2 → G2 → G2
  multiply₂ : G2 → Nat → G2
  neg₂ : G2 → G2
  one : FQ12
  mul : FQ12 → FQ12 → FQ12
  pairing : G2 → G1 → FQ12
  finalExponentiate : FQ12 → FQ12

structure Tables where
  width : Nat
  modulus : Nat
  rootOfUnity : Nat
  powers : List Int
  inverses : List (List Int)
  lagrangePolys : List (List Int)
  deriving DecidableEq

structure SetupObject (G1 G2 : Type) extends Tables where
  setup0 : List G1
  setup1 : List G2
  setup2 : List G1
  setup3 : List G2

/-- `[0]*i + [1] + [0]*(width-1-i)` -/
def unitVector (width i : Nat) : List Int :=
  List.replicate i 0 ++ [1] ++ List.replicate (width - 1 - i) 0

def makeTables (width modulus rootOfUnity : Nat) : Except PyError Tables := do
  let powers := (List.range width).map fun i => (powMod rootOfUnity i modulus : Int)
  let inverses := powers.map fun x => multiInv modulus (powers.map fun p => sub modulus p x)
  let lagrangePolys ← (List.range width).mapM fun i =>
    fft (unitVector width i) modulus rootOfUnity true
  .ok ⟨width, modulus, rootOfUnity, powers, inverses, lagrangePolys⟩

def rootOfUnityCandidates : List (Nat × Nat) := [
  (512, 12531186154666751577774347439625638674013361494693625348921624593362229945844),
  (256, 21071158244812412064791010377580296085971058123779034548857891862303448703672),
  (128, 3535074550574477753284711575859241084625659976293648650204577841347885064712),
  (64, 6460039226971164073848821215333189185736442942708452192605981749202491651199),
  (32, 32311457133713125762627935188100354218453688428796477340173861531654182464166),
  (16, 35811073542294463015946892559272836998938171743018714161809767624935956676211)]

variable {Point G1 G2 FQ12 : Type}

/-- The constructor's last step: the points of the setup. -/
def withPoints (curve : Curve Point G1 G2 FQ12) (securityParameter : Nat) (tables : Tables) :
    SetupObject G1 G2 :=
  let monomials := (List.range (tables.width + 1)).map fun i =>
    powMod securityParameter i CURVE_ORDER
  let lagranges := tables.lagrangePolys.map fun l =>
    (evalPolyAt CURVE_ORDER l securityParameter).toNat
  { tables with
    setup0 := monomials.map (curve.multiply curve.generator)
    setup1 := monomials.map (curve.multiply₂ curve.generator₂)
    setup2 := lagranges.map (curve.multiply curve.generator)
    setup3 := lagranges.map (curve.multiply₂ curve.generator₂) }

def verkleKzgSetup (curve : Curve Point G1 G2 FQ12) (securityParameter width : Nat) :
    Except PyError (SetupObject G1 G2) :=
  if powMod 2 CURVE_ORDER CURVE_ORDER ≠ 2 then .error (.assertionError "")
  else match rootOfUnityCandidates.lookup width with
  | none => .error (.keyError "")
  | some root =>
    if powMod root (width / 2) CURVE_ORDER = 1 then .error (.assertionError "")
    else if powMod root width CURVE_ORDER ≠ 1 then .error (.assertionError "")
    else do
      let tables ← makeTables width CURVE_ORDER root
      .ok (withPoints curve securityParameter tables)

/- The modulus. -/

def orderFactors : List Nat :=
  [2, 3, 11, 19, 10177, 125527, 859267, 906349, 2508409, 2529403, 52437899, 254760293]

theorem order_factored : CURVE_ORDER - 1 = 2 ^ 32 * 3 * 11 * 19 * 10177 * 125527 * 859267 *
    906349 ^ 2 * 2508409 * 2529403 * 52437899 * 254760293 ^ 2 := by decide

theorem order_factors {q : Nat} (prime : q.Prime) (divides : q ∣ CURVE_ORDER - 1) :
    q ∈ orderFactors := by
  have primes : ∀ f ∈ orderFactors, f.Prime := by
    unfold orderFactors
    norm_num
  have known {f : Nat} (member : f ∈ orderFactors) (divisor : q ∣ f) : q ∈ orderFactors := by
    rwa [(Nat.prime_dvd_prime_iff_eq prime (primes f member)).mp divisor]
  rw [order_factored] at divides
  simp only [prime.dvd_mul] at divides
  rcases divides with ((((((((((h | h) | h) | h) | h) | h) | h) | h) | h) | h) | h) | h
  all_goals
    first
      | exact known (by decide) h
      | exact known (by decide) (prime.dvd_of_dvd_pow h)

theorem residues_equal {a b : Nat} (small : a < CURVE_ORDER) (small' : b < CURVE_ORDER)
    (same : (a : ZMod CURVE_ORDER) = b) : a = b := by
  have congruent := (ZMod.natCast_eq_natCast_iff' a b CURVE_ORDER).mp same
  rwa [Nat.mod_eq_of_lt small, Nat.mod_eq_of_lt small'] at congruent

theorem curve_order_prime : CURVE_ORDER.Prime :=
  prime_by_powers (by decide) (fun _ => order_factors)
    (show powMod 7 (CURVE_ORDER - 1) CURVE_ORDER = 1 by decide +kernel) (by decide +kernel)

instance : Fact CURVE_ORDER.Prime := ⟨curve_order_prime⟩

/- The tables. -/
section Tables
variable {modulus : Nat} [prime : Fact modulus.Prime]

/-- What the tables hold, over the field of the modulus. -/
structure Lays (t : Tables) (modulus : Nat) [Fact modulus.Prime] (k : Nat) (w : ZMod modulus) :
    Prop where
  order : t.modulus = modulus
  size : t.width = 2 ^ k
  root : (t.rootOfUnity : ZMod modulus) = w
  small : t.rootOfUnity < modulus
  primitive : IsPrimitiveRoot w (2 ^ k)
  powers : t.powers.length = 2 ^ k ∧ Powers w t.powers
  inverses : t.inverses.length = 2 ^ k ∧ ∀ i < 2 ^ k, (t.inverses.getD i []).length = 2 ^ k ∧
    ∀ j < 2 ^ k, residues (t.inverses.getD i []) j = (w ^ j - w ^ i)⁻¹
  lagranges : t.lagrangePolys.length = 2 ^ k ∧ ∀ i < 2 ^ k,
    (t.lagrangePolys.getD i []).length = 2 ^ k ∧ ∀ j < 2 ^ k,
      residues (t.lagrangePolys.getD i []) j = (interp w (2 ^ k) (Pi.single i 1)).coeff j

theorem residue_zero {c : Int} (small : 0 ≤ c ∧ c < modulus) (zero : (c : ZMod modulus) = 0) :
    c = 0 := by
  obtain ⟨m, rfl⟩ := (ZMod.intCast_zmod_eq_zero_iff_dvd c modulus).mp zero
  by_contra some
  rcases Int.lt_or_gt_of_ne (fun none : m = 0 => some (by rw [none, mul_zero])) with low | high
  · nlinarith
  · nlinarith

theorem residues_unitVector {width i : Nat} (inside : i < width) (j : Nat) :
    (residues (unitVector width i) j : ZMod modulus) = Pi.single (M := fun _ => ZMod modulus) i 1 j := by
  simp only [residues, unitVector, List.getD_eq_getElem?_getD, List.append_assoc]
  rcases Nat.lt_trichotomy j i with before | rfl | after
  · rw [List.getElem?_append_left (by simpa using before), List.getElem?_replicate, if_pos before,
      Pi.single_eq_of_ne (by omega)]
    simp
  · rw [List.getElem?_append_right (by simp), List.length_replicate, Nat.sub_self, Pi.single_eq_same]
    simp
  · obtain ⟨d, rfl⟩ : ∃ d, j = i + (d + 1) := ⟨j - i - 1, by omega⟩
    rw [List.getElem?_append_right (by simp), List.length_replicate, Nat.add_sub_cancel_left,
      Pi.single_eq_of_ne (by omega), List.singleton_append, List.getElem?_cons_succ,
      List.getElem?_replicate]
    split <;> simp

theorem inverses_row {w : ZMod modulus} {powers : List Int} (holds : Powers w powers) (x : Int) :
    (multiInv modulus (powers.map fun p => sub modulus p x)).length = powers.length ∧
      ∀ j < powers.length, residues (multiInv modulus (powers.map fun p => sub modulus p x)) j =
        (w ^ j - x)⁻¹ := by
  have positive : NeZero modulus := ⟨prime.out.ne_zero⟩
  have proper : ∀ v ∈ powers.map fun p => sub modulus p x, (v : ZMod modulus) = 0 → v = 0 := by
    intro v member zero
    obtain ⟨p, _, rfl⟩ := List.mem_map.mp member
    exact residue_zero (mod_reduced _) zero
  have inverted := multiInv_cast proper
  have size : (multiInv modulus (powers.map fun p => sub modulus p x)).length = powers.length := by
    have lengths := congrArg List.length inverted
    simpa using lengths
  refine ⟨size, fun j inside => ?_⟩
  have entry := congrArg (fun l => l[j]?) inverted
  simp only [List.getElem?_map] at entry
  rw [List.getElem?_eq_getElem (by omega), List.getElem?_eq_getElem (by omega)] at entry
  simp only [Option.map_some, Option.some.injEq] at entry
  rw [residues_get (by omega), entry, sub_cast, ← holds j inside, residues_get inside]

theorem forall₂_range {β : Type} {R : Nat → β → Prop} {n : Nat} {bs : List β}
    (related : List.Forall₂ R (List.range n) bs) (d : β) :
    bs.length = n ∧ ∀ i < n, R i (bs.getD i d) := by
  have size := related.length_eq
  rw [List.length_range] at size
  refine ⟨size.symm, fun i inside => ?_⟩
  have entry := (List.forall₂_iff_get.mp related).2 i (by simpa using inside) (by omega)
  rw [List.getD_eq_getElem?_getD, List.getElem?_eq_getElem (by omega), Option.getD_some]
  simpa using entry

theorem makeTables_lays {k root : Nat} (small : root < modulus)
    (primitive : IsPrimitiveRoot (root : ZMod modulus) (2 ^ k)) :
    ∃ t, makeTables (2 ^ k) modulus root = .ok t ∧ Lays t modulus k root := by
  have small' : (0 : Int) ≤ (root : Int) ∧ (root : Int) < modulus := by omega
  have primitive' : IsPrimitiveRoot (((root : Nat) : Int) : ZMod modulus) (2 ^ k) := by
    simpa using primitive
  obtain ⟨polys, run, each⟩ := mapM_ok (l := List.range (2 ^ k))
    (f := fun i => fft (unitVector (2 ^ k) i) modulus root true)
    (R := fun i poly => poly.length = 2 ^ k ∧ ∀ j < 2 ^ k, residues poly j =
      (interp (root : ZMod modulus) (2 ^ k) (Pi.single i 1)).coeff j) (by
    intro i member
    have inside : i < 2 ^ k := List.mem_range.mp member
    have few : (unitVector (2 ^ k) i).length ≤ 2 ^ k := by simp [unitVector]; omega
    obtain ⟨out, run, size, _, values⟩ := fft_inverse primitive' (Or.inr small') few
    refine ⟨out, run, size, fun j within => ?_⟩
    rw [values j within, Int.cast_natCast]
    exact congrArg (fun p => p.coeff j)
      (interp_congr primitive fun j _ => residues_unitVector inside j))
  obtain ⟨count, rows⟩ := forall₂_range each []
  have powers : Powers (root : ZMod modulus)
      ((List.range (2 ^ k)).map fun i => (powMod root i modulus : Int)) := by
    intro i inside
    rw [residues_map _ (by simpa using inside), Int.cast_natCast, powMod_cast]
  refine ⟨_, by simp only [makeTables, run, bind, Except.bind]; rfl, rfl, rfl, rfl, small, primitive,
    ⟨by simp, powers⟩, ⟨by simp, fun i inside => ?_⟩, count, rows⟩
  have row := inverses_row powers (powMod root i modulus)
  simp only [List.length_map, List.length_range, Int.cast_natCast, powMod_cast] at row
  simpa [List.getD_eq_getElem?_getD, inside] using row

end Tables

/- The setup. -/

structure Standard (curve : Curve Point G1 G2 FQ12) (secret : Nat) (setup : SetupObject G1 G2)
    (k : Nat) (w : ZMod CURVE_ORDER) : Prop where
  tables : Lays setup.toTables CURVE_ORDER k w
  setup0 : setup.setup0 = (List.range (2 ^ k + 1)).map fun i =>
    curve.multiply curve.generator (powMod secret i CURVE_ORDER)
  setup1 : setup.setup1 = (List.range (2 ^ k + 1)).map fun i =>
    curve.multiply₂ curve.generator₂ (powMod secret i CURVE_ORDER)
  setup2 : setup.setup2 = setup.lagrangePolys.map fun l =>
    curve.multiply curve.generator (evalPolyAt CURVE_ORDER l secret).toNat
  setup3 : setup.setup3 = setup.lagrangePolys.map fun l =>
    curve.multiply₂ curve.generator₂ (evalPolyAt CURVE_ORDER l secret).toNat

theorem lookup_mem {l : List (Nat × Nat)} {a b : Nat} (found : l.lookup a = some b) :
    (a, b) ∈ l := by
  induction l with
  | nil => simp at found
  | cons e l ih =>
    obtain ⟨c, d⟩ := e
    rw [List.lookup_cons] at found
    split at found
    · rename_i same
      simp_all
    · exact List.mem_cons_of_mem _ (ih found)

/-- Every candidate passes both assertions: it is a root of exactly its order. -/
theorem candidate_primitive {width root : Nat}
    (known : rootOfUnityCandidates.lookup width = some root) :
    root < CURVE_ORDER ∧ powMod root (width / 2) CURVE_ORDER ≠ 1 ∧
      powMod root width CURVE_ORDER = 1 ∧ ∃ k, width = 2 ^ k ∧
        IsPrimitiveRoot (root : ZMod CURVE_ORDER) (2 ^ k) := by
  have checks : ∀ e ∈ rootOfUnityCandidates, e.2 < CURVE_ORDER ∧
      powMod e.2 (e.1 / 2) CURVE_ORDER ≠ 1 ∧ powMod e.2 e.1 CURVE_ORDER = 1 ∧
      e.1 = 2 ^ (e.1.log2 - 1 + 1) := by decide
  obtain ⟨small, half, whole, power⟩ := checks _ (lookup_mem known)
  simp only at small half whole power
  refine ⟨small, half, whole, width.log2 - 1 + 1, power, ?_⟩
  have halved : width / 2 = 2 ^ (width.log2 - 1) := by
    rw [pow_succ] at power
    omega
  have moved : ¬ (root : ZMod CURVE_ORDER) ^ 2 ^ (width.log2 - 1) = 1 := by
    rw [← halved, ← powMod_one_iff (by decide)]
    exact half
  have turned : (root : ZMod CURVE_ORDER) ^ 2 ^ (width.log2 - 1 + 1) = 1 := by
    rw [← power, ← powMod_one_iff (by decide)]
    exact whole
  have order := orderOf_eq_prime_pow moved turned
  rw [← order]
  exact IsPrimitiveRoot.orderOf _

/-- The constructor returns normally at every width of the table. -/
theorem verkleKzgSetup_standard (curve : Curve Point G1 G2 FQ12) (secret : Nat) {width root : Nat}
    (known : rootOfUnityCandidates.lookup width = some root) :
    ∃ setup k, verkleKzgSetup curve secret width = .ok setup ∧ width = 2 ^ k ∧
      Standard curve secret setup k root := by
  obtain ⟨small, half, whole, k, power, primitive⟩ := candidate_primitive known
  obtain ⟨t, run, lays⟩ := makeTables_lays small primitive
  have fermat : powMod 2 CURVE_ORDER CURVE_ORDER = 2 := by decide +kernel
  rw [← power] at run
  refine ⟨withPoints curve secret t, k, ?_, power, ⟨lays, ?_, ?_, ?_, ?_⟩⟩
  · unfold verkleKzgSetup
    rw [if_neg (not_not_intro fermat), known]
    simp only [half, whole, run, ne_eq, not_true_eq_false, ↓reduceIte, bind, Except.bind]
  · simp only [withPoints, lays.size, List.map_map]; rfl
  · simp only [withPoints, lays.size, List.map_map]; rfl
  · exact List.map_map
  · exact List.map_map

theorem candidate_hex : ∃ root, rootOfUnityCandidates.lookup 16 = some root := ⟨_, rfl⟩

theorem candidate_byte : ∃ root, rootOfUnityCandidates.lookup 256 = some root := ⟨_, rfl⟩

section Made
variable {curve : Curve Point G1 G2 FQ12} {secret width : Nat} {setup : SetupObject G1 G2}
  (made : verkleKzgSetup curve secret width = .ok setup)
include made

/-- Whatever the constructor returns is laid out for the candidate of its width. -/
theorem made_standard : ∃ root k, rootOfUnityCandidates.lookup width = some root ∧
    width = 2 ^ k ∧ Standard curve secret setup k root := by
  have run := made
  unfold verkleKzgSetup at run
  split at run
  · simp at run
  · split at run
    · simp at run
    · rename_i root known
      obtain ⟨setup', k, made', size, standard⟩ := verkleKzgSetup_standard curve secret known
      cases made.symm.trans made'
      exact ⟨root, k, known, size, standard⟩

theorem made_width : setup.width = width := by
  obtain ⟨root, k, _, size, standard⟩ := made_standard made
  rw [standard.tables.size, size]

end Made

end KzgSetup
