import StatelessEthereum.VerkleMultiproof
import StatelessEthereum.PolynomialCurve

/- What the verifier of the multiproof checks, by logarithms, and what it leaves
   open: the traversals of a proof are not compared with the keys or the root. -/
namespace MultiproofChecks
open Polynomial PythonError BigEndian EvaluationDomain Fft PolyUtils KzgSetup KzgScheme
open CommitmentScheme IdealCurve Openings VerkleOpenings VerkleChecks VerkleMultiproof PolynomialCurve
open VerkleTrees hiding insert get getKeyChunks
open VerkleStorage VerkleKey
variable {Point G1 G2 FQ12 A : Type} [CommRing A] [Algebra (ZMod CURVE_ORDER) A]

def Step.claim (value : Nat) (step : Step Point) : Claim Point :=
  ⟨step.commitment, step.idx.toNat, step.leaf value⟩

section Run
variable {backend : Backend Point G1 G2 FQ12} {setup : SetupObject G1 G2} {k bits : Nat}
  {w : ZMod CURVE_ORDER} {logs : Logarithms backend.curve A} {s : A}
  (ideal : SetupLogs logs setup k w s) {root : Point} {rootBytes : Bytes}
  (bytes : backend.format.generateRootBytes root = .ok rootBytes)
include ideal bytes

theorem checkStep_ok {path : List Nat} (small : ∀ i ∈ path, i < 256 ^ 2) (value : Nat)
    {step : Step Point} {idx : Nat} (place : step.idx = idx) (inside : idx < 2 ^ k) {depth : Nat}
    (shallow : depth < 256 ^ 2) (pairingCheck : FQ12) :
    ∃ out, checkStep backend setup root path value pairingCheck (step, depth) = .ok out ∧
      logs.logT out = logs.logT pairingCheck + ((Step.claim value step).opening logs
        (factorAt backend.sha256 rootBytes path depth)).term w (2 ^ k) s := by
  obtain ⟨r, hashed, factor⟩ := factorAt_ok backend.sha256 rootBytes small shallow
  obtain ⟨z, made, log⟩ := cofactorPoint_log ideal inside
  have made' : VerkleMultiproof.cofactorPoint backend setup step.idx = .ok z := by
    rw [VerkleMultiproof.cofactorPoint, place, listIndex_nat, listIndex_nat]
    exact made
  have residue : 0 ≤ ((CURVE_ORDER : Int) - step.leaf value) % CURVE_ORDER := (mod_reduced _).1
  have negated : (((((CURVE_ORDER : Int) - step.leaf value) % CURVE_ORDER).toNat : Nat) : A) =
      - algebraMap (ZMod CURVE_ORDER) A (step.leaf value : Int) := by
    rw [cast_toNat residue, ZMod.intCast_mod, Int.cast_sub, Int.cast_natCast, ZMod.natCast_self,
      zero_sub, map_neg]
  refine ⟨_, by simp only [checkStep, bytes, hashed, made', bind, Except.bind]; rfl, ?_⟩
  simp only [logs.logT_mul, logs.logT_pairing, log, logs.log_multiply, logs.log_add,
    logs.log_generator, mul_one, negated, Step.claim, Claim.opening, Opening.term, ← factor, place,
    Int.toNat_natCast, map_natCast]
  ring

theorem checkSteps_ok {path : List Nat} (small : ∀ i ∈ path, i < 256 ^ 2) (value : Nat)
    {traversal : List (Step Point)}
    (places : ∀ step ∈ traversal, ∃ idx : Nat, step.idx = idx ∧ idx < 2 ^ k) {depth : Nat}
    (shallow : depth + traversal.length ≤ 256 ^ 2) (pairingCheck : FQ12) :
    ∃ out, (traversal.zipIdx depth).foldlM (checkStep backend setup root path value) pairingCheck =
        .ok out ∧ logs.logT out = logs.logT pairingCheck + total w (2 ^ k) s
          (claimedFrom logs (factorAt backend.sha256 rootBytes path) depth
            (traversal.map (Step.claim value))) := by
  induction traversal generalizing depth pairingCheck with
  | nil => exact ⟨pairingCheck, rfl, by rw [List.map_nil, claimedFrom, total_nil, add_zero]⟩
  | cons step traversal ih =>
    rw [List.length_cons] at shallow
    obtain ⟨⟨idx, place, inside⟩, rest⟩ := List.forall_mem_cons.mp places
    obtain ⟨first, run, log⟩ := checkStep_ok ideal bytes small value place inside
      (show depth < 256 ^ 2 by omega) pairingCheck
    obtain ⟨out, runs, log'⟩ := ih rest (show depth + 1 + traversal.length ≤ 256 ^ 2 by omega) first
    refine ⟨out, ?_, ?_⟩
    · rw [List.zipIdx_cons, List.foldlM_cons, run]
      exact runs
    · rw [log', log, List.map_cons, claimedFrom, total_cons, add_assoc]

/-- A traversal that can be checked: all its places lie in the domain, and its
    levels can be hashed. -/
structure Checkable (n : Nat) (traversal : List (Step Point)) : Prop where
  places : ∀ step ∈ traversal, ∃ idx : Nat, step.idx = idx ∧ idx < n
  shallow : traversal.length ≤ 256 ^ 2

def pairOpenings (logs : Logarithms backend.curve A) (setup : SetupObject G1 G2) (rootBytes : Bytes)
    (keyTraversals : Nat → Option (List (Step Point))) (entry : (Bytes × Word) × Nat) :
    List (Opening (ZMod CURVE_ORDER) A) :=
  claimedOpenings logs setup rootBytes entry.1.2
    (((keyTraversals entry.2).getD []).map (Step.claim (ofBytes entry.1.1)))

/-- The verifier accepts if and only if the openings of all pairs of a value and
    a key add up to the witness over the whole domain. -/
theorem verifyProof_iff [DecidableEq FQ12] (ready : Ready setup k w bits) (values : List Bytes)
    (keys : List Word) (commitments : List Point)
    {keyTraversals : Nat → Option (List (Step Point))}
    (given : ∀ keyIdx < (values.zip keys).length, ∃ traversal,
      keyTraversals keyIdx = some traversal ∧ Checkable (2 ^ k) traversal) (witness : Point) :
    VerkleMultiproof.verifyProof backend setup values (keys.map Word.bytes) root
        (⟨commitments, keyTraversals⟩, witness) = .ok true ↔
      ((values.zip keys).zipIdx.map fun entry => total w (2 ^ k) s
        (pairOpenings logs setup rootBytes keyTraversals entry)).sum =
          (s ^ 2 ^ k - 1) * logs.log (backend.curve.lift witness) := by
  have paths := mapM_map_ok (l := keys) (h := Word.bytes)
    fun key _ => (pathOf_ok ready key.bytes).1
  have zipped : ((values.map ofBytes).zip (keys.map fun key => pathOf setup.width key.bytes)).zipIdx =
      (values.zip keys).zipIdx.map fun entry =>
        ((ofBytes entry.1.1, pathOf setup.width entry.1.2.bytes), entry.2) := by
    rw [List.zip_map, List.zipIdx_map]
    rfl
  have each : ∀ entry ∈ (values.zip keys).zipIdx, ∀ out, True → ∃ next,
      checkKey backend setup root keyTraversals out
        ((ofBytes entry.1.1, pathOf setup.width entry.1.2.bytes), entry.2) = .ok next ∧ True ∧
      logs.logT next = logs.logT out +
        total w (2 ^ k) s (pairOpenings logs setup rootBytes keyTraversals entry) := by
    rintro ⟨⟨value, key⟩, keyIdx⟩ member out _
    have inside := (List.getElem?_eq_some_iff.mp (List.mk_mem_zipIdx_iff_getElem?.mp member)).1
    obtain ⟨traversal, found, checkable⟩ := given keyIdx inside
    obtain ⟨next, run, log⟩ := checkSteps_ok ideal bytes (pathOf_ok ready key.bytes).2
      (ofBytes value) checkable.places (show 0 + traversal.length ≤ 256 ^ 2 by
        rw [Nat.zero_add]
        exact checkable.shallow) out
    refine ⟨next, by simp only [checkKey, found, run], trivial, ?_⟩
    rw [log, pairOpenings, found, Option.getD_some, claimedOpenings]
  obtain ⟨out, run, _, log⟩ := foldlM_adds (fun _ => True) logs.logT each (s := backend.curve.one)
    trivial
  obtain ⟨final, last, log'⟩ := checkWitness_ok ideal witness out
  simp only [VerkleMultiproof.verifyProof, paths, zipped, List.foldlM_map, run, last, bind,
    Except.bind]
  rw [Except.ok.injEq, decide_eq_true_iff, logs.final, log', log, logs.logT_one, zero_add, sub_eq_zero]

end Run

/-- What a traversal should say: from the root on every step leads to the next
    one at the chunk of its depth, and the last opens a suffix. -/
structure Chained (hash : Point → Nat) (chunks : List Nat) (root : Point)
    (traversal : List (Step Point)) : Prop where
  starts : (traversal.map Step.commitment).head? = some root
  linked : ∀ (i : Nat) (step next : Step Point), traversal[i]? = some step →
    traversal[i + 1]? = some next → step.childVal = hash next.commitment
  placed : ∀ (i : Nat) (step next : Step Point), traversal[i]? = some step →
    traversal[i + 1]? = some next →
      if step.nodeType = .extension then step.idx = 2 else chunks[i]?.map Int.ofNat = some step.idx
  ends : ∃ last, traversal.getLast? = some last ∧ last.nodeType = .suffix ∧
    chunks.getLast?.map Int.ofNat = some last.idx

/-- Whatever the verifier accepts is chained to the root, for every key. -/
def Bound [DecidableEq FQ12] (backend : Backend Point G1 G2 FQ12) (setup : SetupObject G1 G2)
    (root : Point) (values : List Bytes) (keys : List Word) : Prop :=
  ∀ proofDict witness,
    VerkleMultiproof.verifyProof backend setup values (keys.map Word.bytes) root
      (proofDict, witness) = .ok true →
    ∀ (keyIdx : Nat) (key : Word), keys[keyIdx]? = some key → ∃ traversal,
      proofDict.keyTraversals keyIdx = some traversal ∧
        Chained (kzgScheme backend setup).hashPointToField (keyChunks setup.width key.bytes) root
          traversal

/- A step that nothing leads to, and that leads nowhere: it opens the polynomial
   `X - 1 + v` at the first point of the domain, where its value is `v`. -/
section Forged
variable {width k bits : Nat} (wide : 1 < width)

noncomputable def forgedPoint (value : Nat) : LowPolynomial width where
  poly := X + C ((value : ZMod CURVE_ORDER) - 1)
  low := by
    rw [degree_X_add_C]
    exact_mod_cast wide

noncomputable def forgedStep (hash : LowPolynomial width → Nat) (value : Nat) :
    Step (LowPolynomial width) :=
  ⟨forgedPoint wide value, 0, .suffix, hash (forgedPoint wide value) + 1⟩

/-- The same two steps for every key: the child of the first is not the second. -/
noncomputable def forgedTraversals (hash : LowPolynomial width → Nat) (values : List Bytes)
    (keyIdx : Nat) : Option (List (Step (LowPolynomial width))) :=
  let step := forgedStep wide hash (ofBytes (values.getD keyIdx []))
  some [step, step]

theorem forged_unchained (hash : LowPolynomial width → Nat) (values : List Bytes) (keyIdx : Nat)
    (chunks : List Nat) (root : LowPolynomial width) {traversal : List (Step (LowPolynomial width))}
    (given : forgedTraversals wide hash values keyIdx = some traversal) :
    ¬ Chained hash chunks root traversal := by
  cases given
  intro chained
  have linked := chained.linked 0 _ _ rfl rfl
  simp [forgedStep] at linked

variable {w : ZMod CURVE_ORDER} (logFloor : Nat → Nat) (sha256 : Bytes → Bytes)
  (hash : LowPolynomial width → Nat) (codec : Codec (LowPolynomial width))
  {setup : SetupObject (ZMod CURVE_ORDER)[X] (ZMod CURVE_ORDER)[X]}
  (ready : Ready setup k w bits)
include ready

/-- Every opening of a forged step is a true one, with the quotient one. -/
theorem forged_total (hash : LowPolynomial width → Nat) (value : Nat)
    (factor : Nat → ZMod CURVE_ORDER) :
    total w (2 ^ k) X (claimedFrom (polynomialLogs width) factor 0
      ([forgedStep wide hash value, forgedStep wide hash value].map (Step.claim value))) =
        (X ^ 2 ^ k - 1) * C (factor 0 + factor 1) := by
  have product := cofactor_mul ready.lays.primitive (Nat.two_pow_pos k)
  have term (r : ZMod CURVE_ORDER) :
      ((Step.claim value (forgedStep wide hash value)).opening (polynomialLogs width) r).term w (2 ^ k) X =
        C r * (X ^ 2 ^ k - 1) := by
    have value : (X + C ((value : ZMod CURVE_ORDER) - 1) : (ZMod CURVE_ORDER)[X]) - C (value : ZMod _) =
        X - C (w ^ 0) := by
      rw [pow_zero, C_sub]
      ring
    have at_X : aeval X (cofactor w (2 ^ k) 0) = cofactor w (2 ^ k) 0 := aeval_X_left_apply _
    rw [← product, ← value, ← at_X]
    rfl
  simp only [List.map_cons, List.map_nil, claimedFrom, total_cons, total_nil, term, C_add]
  ring

theorem forged_accepted (ideal : SetupLogs (polynomialLogs width) setup k w X)
    (root : LowPolynomial width) (values : List Bytes) (keys : List Word) :
    ∃ witness, VerkleMultiproof.verifyProof (polynomialBackend width logFloor sha256 hash codec) setup
      values (keys.map Word.bytes) root (⟨[], forgedTraversals wide (kzgScheme
        (polynomialBackend width logFloor sha256 hash codec) setup).hashPointToField values⟩,
        witness) = .ok true := by
  let factor (entry : (Bytes × Word) × Nat) := factorAt sha256 (codec.rootBytes root)
    (pathOf setup.width entry.1.2.bytes)
  let sum := ((values.zip keys).zipIdx.map fun entry => factor entry 0 + factor entry 1).sum
  have low : (C sum : (ZMod CURVE_ORDER)[X]).degree < width := by
    refine lt_of_le_of_lt degree_C_le ?_
    exact_mod_cast (show 0 < width by omega)
  let backend := polynomialBackend width logFloor sha256 hash codec
  let traversals := forgedTraversals wide (kzgScheme backend setup).hashPointToField values
  have rootBytes : backend.format.generateRootBytes root = .ok (codec.rootBytes root) := rfl
  have given : ∀ keyIdx < (values.zip keys).length, ∃ traversal,
      traversals keyIdx = some traversal ∧ Checkable (2 ^ k) traversal := by
    intro keyIdx _
    refine ⟨_, rfl, ?_, by simp⟩
    intro step member
    simp only [List.mem_cons, List.not_mem_nil, or_false, or_self] at member
    exact ⟨0, by rw [member]; rfl, Nat.two_pow_pos k⟩
  have verdict := verifyProof_iff ideal rootBytes ready values keys [] given ⟨C sum, low⟩
  refine ⟨⟨C sum, low⟩, verdict.mpr ?_⟩
  have each : ∀ entry ∈ (values.zip keys).zipIdx,
      total w (2 ^ k) X (@pairOpenings _ _ _ _ _ _ _ backend (polynomialLogs width) setup
        (codec.rootBytes root) traversals entry) =
          (X ^ 2 ^ k - 1) * C (factor entry 0 + factor entry 1) := by
    rintro ⟨⟨value, key⟩, keyIdx⟩ member
    have found := List.mk_mem_zipIdx_iff_getElem?.mp member
    have known : values.getD keyIdx [] = value := by
      rw [List.getElem?_zip_eq_some] at found
      rw [List.getD_eq_getElem?_getD, found.1, Option.getD_some]
    simp only [pairOpenings, traversals, forgedTraversals, known, Option.getD_some]
    exact forged_total wide ready _ (ofBytes value) (factor ((value, key), keyIdx))
  have scaled : C sum = ((values.zip keys).zipIdx.map fun entry =>
      (C (factor entry 0 + factor entry 1) : (ZMod CURVE_ORDER)[X])).sum := by
    rw [map_list_sum, List.map_map]
    rfl
  rw [List.map_congr_left each, List.sum_map_mul_left, ← scaled]
  rfl

end Forged

/-- What the verifier accepts is chained to the root only if there are no keys. -/
theorem multiproof_bound_iff {width : Nat} (supported : width = 16 ∨ width = 256)
    (logFloor : Nat → Nat) (sha256 : Bytes → Bytes) (hash : LowPolynomial width → Nat)
    (codec : Codec (LowPolynomial width)) (root : LowPolynomial width) (values : List Bytes)
    (keys : List Word) :
    Bound (polynomialBackend width logFloor sha256 hash codec) (polynomialSetup (tablesOf width)) root
      values keys ↔ keys = [] := by
  obtain ⟨k, bits, size, ready, ideal⟩ := polynomial_ready supported
  have wide : 1 < width := by omega
  constructor
  · intro bound
    by_contra some
    obtain ⟨key, rest, rfl⟩ := List.exists_cons_of_ne_nil some
    obtain ⟨witness, accepted⟩ := forged_accepted wide logFloor sha256 hash codec ready ideal root
      values (key :: rest)
    obtain ⟨traversal, given, chained⟩ := bound _ witness accepted 0 key rfl
    exact forged_unchained wide _ values 0 _ root given chained
  · rintro rfl proofDict witness _ keyIdx key found
    simp at found

theorem multiproof_bound_sample :
    Bound (polynomialBackend 16 sampleLogFloor (fun _ => List.replicate 32 1) (fun _ => 0)
      (losslessCodec (LowPolynomial 16))) (polynomialSetup (tablesOf 16)) ⟨0, low_zero 16⟩
      [sampleValue.bytes] [sampleKey] ↔ [sampleKey] = [] :=
  multiproof_bound_iff (Or.inl rfl) sampleLogFloor (fun _ => List.replicate 32 1) (fun _ => 0)
    (losslessCodec (LowPolynomial 16)) ⟨0, low_zero 16⟩ [sampleValue.bytes] [sampleKey]

/-- One key: two steps are accepted that have nothing to do with it or the root. -/
theorem multiproof_not_bound : ∃ root proofDict witness traversal,
    VerkleMultiproof.verifyProof (polynomialBackend 256 sampleLogFloor (fun _ => List.replicate 32 1)
      (fun p => (p.poly.eval 2).val) (losslessCodec (LowPolynomial 256)))
      (polynomialSetup (tablesOf 256)) [sampleValue.bytes] [sampleKey.bytes] root
      (proofDict, witness) = .ok true ∧
    proofDict.keyTraversals 0 = some traversal ∧
    ¬ Chained (kzgScheme (polynomialBackend 256 sampleLogFloor (fun _ => List.replicate 32 1)
      (fun p => (p.poly.eval 2).val) (losslessCodec (LowPolynomial 256)))
      (polynomialSetup (tablesOf 256))).hashPointToField (keyChunks 256 sampleKey.bytes) root traversal := by
  obtain ⟨k, bits, size, ready, ideal⟩ := polynomial_ready (Or.inr rfl : 256 = 16 ∨ 256 = 256)
  have wide : 1 < 256 := by decide
  obtain ⟨witness, accepted⟩ := forged_accepted wide sampleLogFloor (fun _ => List.replicate 32 1)
    (fun p => (p.poly.eval 2).val) (losslessCodec (LowPolynomial 256)) ready ideal ⟨0, low_zero 256⟩
    [sampleValue.bytes] [sampleKey]
  exact ⟨_, _, witness, _, accepted, rfl, forged_unchained wide _ [sampleValue.bytes] 0 _ _ rfl⟩

end MultiproofChecks
