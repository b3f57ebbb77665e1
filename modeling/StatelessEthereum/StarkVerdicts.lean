import StatelessEthereum.StarkMerkle

/- What a verdict of the STARK verifier rests on, and what it should rest on. -/
namespace StarkVerdicts
open BigEndian PythonError StateEffect LockStep FiatShamir LowDegree FriProtocol MptCircuit StarkMerkle

/-- The challenges of a transcript that has absorbed a whole proof. -/
structure Challenges where
  alpha : UInt64
  alphas : List UInt64

def challengesOf (secureHash : Digest) (publicInputs : PublicInputs) (proof : StarkProof) :
    Talk Challenges := do
  appendPublic secureHash publicInputs
  append secureHash (ascii "trace_commitment") proof.traceCommitment
  let alpha ← challenge secureHash (ascii "alpha")
  let alphas ← rebuildAlphas secureHash proof.friProof.layerCommitments
  append secureHash (ascii "fri_final") (tobytes proof.friProof.finalPolynomial)
  pure { alpha, alphas }

/-- The transcript of a proof object ends with these challenges and indices. -/
def Drawn (secureHash : Digest) (limit : Nat) (result : STARKProofResult)
    (challenges : Challenges) (indices : List Nat) : Prop :=
  ∃ s t,
    challengesOf secureHash result.publicInputs result.proof (start secureHash none) =
      (.ok challenges, s) ∧
    challengeIndices secureHash limit result.proof.params.nQueries
      result.proof.compositionDegree s = (.ok indices, t)

structure Shaped (index : Nat) (response : QueryResponse) : Prop where
  same : response.index = index
  present : response.authPaths ≠ .falsy
  eight : response.traceValues.length = 8

structure Checked (secureHash : Digest) (limit : Nat) (result : STARKProofResult) : Prop where
  field : result.proof.params.fieldModulus = FIELD_PRIME_INT
  power : ∃ k : Nat, result.proof.params.traceLength = 2 ^ k
  secure : 80 ≤ result.proof.params.securityBits
  queries : 20 ≤ result.proof.params.nQueries
  low : result.proof.friProof.finalPolynomial.length ≤ FINAL_DEGREE_BOUND
  responses : ∃ challenges indices, Drawn secureHash limit result challenges indices ∧
    List.Forall₂ Shaped indices result.proof.queryResponses

theorem land_pred_iff (n : Int) : n ≠ 0 ∧ Int.land n (n - 1) = 0 ↔ ∃ k : Nat, n = 2 ^ k := by
  constructor
  · rintro ⟨other, bits⟩
    cases n with
    | ofNat n =>
      have positive : n ≠ 0 := fun zero => other (by simp [zero])
      have same : Int.ofNat n - 1 = Int.ofNat (n - 1) :=
        (Nat.cast_pred (Nat.pos_of_ne_zero positive)).symm
      rw [same] at bits
      obtain ⟨k, power⟩ := (Nat.and_sub_one_eq_zero_iff_isPowerOfTwo positive).mp
        (Int.ofNat.inj bits)
      exact ⟨k, by simp [power]⟩
    | negSucc n => cases bits
  · rintro ⟨k, rfl⟩
    have power := Nat.ne_zero_and_sub_one_eq_zero_iff_isPowerOfTwo.mpr ⟨k, rfl⟩
    constructor
    · exact pow_ne_zero k two_ne_zero
    · have cast : (2 : Int) ^ k = ((2 ^ k : Nat) : Int) := by simp
      rw [cast, ← Nat.cast_pred (Nat.two_pow_pos k)]
      exact congrArg Int.ofNat power.2

theorem verifySetup_iff (params : SecurityParameters) :
    verifySetup params = true ↔ params.fieldModulus = FIELD_PRIME_INT ∧
      (∃ k : Nat, params.traceLength = 2 ^ k) ∧ 80 ≤ params.securityBits ∧
      20 ≤ params.nQueries := by
  rw [← land_pred_iff]
  unfold verifySetup FIELD_PRIME_INT
  split
  · simp_all
  · split
    · rename_i wrong
      simp only [Bool.false_eq_true, false_iff]
      tauto
    · rename_i right
      split
      · simp only [Bool.false_eq_true, false_iff]
        omega
      · split
        · simp only [Bool.false_eq_true, false_iff]
          omega
        · simp_all

theorem checkResponse_iff (response : QueryResponse) (index : Nat) :
    checkResponse response index = true ↔ Shaped index response := by
  constructor
  · intro accepted
    unfold checkResponse at accepted
    split at accepted
    · cases accepted
    · rename_i same
      split at accepted
      · cases accepted
      · rename_i present
        split at accepted
        · cases accepted
        · rename_i eight
          exact ⟨not_not.mp same, present, not_not.mp eight⟩
  · rintro ⟨same, present, eight⟩
    simp [checkResponse, same, present, eight]

theorem verifyQueries_iff (proof : StarkProof) (indices : List Nat) :
    verifyQueries proof indices = true ↔ List.Forall₂ Shaped indices proof.queryResponses := by
  have flipped : List.Forall₂ Shaped indices proof.queryResponses ↔
      List.Forall₂ (fun response index => Shaped index response) proof.queryResponses indices :=
    ⟨List.Forall₂.flip, List.Forall₂.flip⟩
  rw [flipped, List.forall₂_iff_zip]
  unfold verifyQueries
  split
  · rename_i other
    simp [other]
  · rename_i same
    simp only [List.all_eq_true, Prod.forall, checkResponse_iff, not_not.mp same, true_and]

/-- After the challenges, only the length of the final polynomial and the
    queries decide. -/
theorem replay_eq (secureHash : Digest) (limit : Nat) (publicInputs : PublicInputs)
    (proof : StarkProof) :
    replay secureHash limit publicInputs proof =
      challengesOf secureHash publicInputs proof >>= fun _ =>
        if FINAL_DEGREE_BOUND < proof.friProof.finalPolynomial.length then pure false
        else replayQueries secureHash limit proof := by
  have regroup : LawfulMonad Talk := effect_lawful
  unfold replay replayFri verify challengesOf
  simp only [bind_assoc, pure_bind]
  split <;> simp

theorem replay_iff (secureHash : Digest) (limit : Nat) (result : STARKProofResult) :
    (replay secureHash limit result.publicInputs result.proof (start secureHash none)).1 =
      .ok true ↔
    result.proof.friProof.finalPolynomial.length ≤ FINAL_DEGREE_BOUND ∧
      ∃ challenges indices, Drawn secureHash limit result challenges indices ∧
        List.Forall₂ Shaped indices result.proof.queryResponses := by
  rw [replay_eq]
  constructor
  · intro accepted
    obtain ⟨challenges, s, drawn, rest⟩ := bind_inv (Prod.ext accepted rfl)
    split at rest
    · cases rest
    · rename_i low
      obtain ⟨indices, t, sampled, rest⟩ := bind_inv rest
      have checked : verifyQueries result.proof indices = true :=
        Except.ok.inj (congrArg Prod.fst rest)
      exact ⟨Nat.le_of_not_lt low, challenges, indices, ⟨s, t, drawn, sampled⟩,
        (verifyQueries_iff _ _).mp checked⟩
  · rintro ⟨low, challenges, indices, ⟨s, t, drawn, sampled⟩, shaped⟩
    rw [bind_ok drawn, if_neg (Nat.not_lt.mpr low), replayQueries, bind_ok sampled]
    rw [(verifyQueries_iff _ _).mpr shaped]
    rfl

theorem verifyLookup_iff (secureHash : Digest) (limit : Nat) (result : STARKProofResult) :
    verifyLookup secureHash limit result = .ok true ↔ Checked secureHash limit result := by
  have both : verifyLookup secureHash limit result = .ok true ↔
      verifySetup result.proof.params = true ∧
      (replay secureHash limit result.publicInputs result.proof (start secureHash none)).1 =
        .ok true := by
    unfold verifyLookup
    split
    · rename_i set
      split <;> simp_all
    · simp_all
  rw [both, verifySetup_iff, replay_iff]
  constructor
  · rintro ⟨⟨field, power, secure, queries⟩, low, responses⟩
    exact ⟨field, power, secure, queries, low, responses⟩
  · rintro ⟨field, power, secure, queries, low, responses⟩
    exact ⟨⟨field, power, secure, queries⟩, low, responses⟩

theorem verifyEach_iff (secureHash : Digest) (limit : Nat) (toReturn : Bool)
    (proofs : List STARKProofResult) :
    verifyEach secureHash limit toReturn proofs = .ok true ↔
      toReturn = true ∧ ∀ p ∈ proofs, Checked secureHash limit p := by
  induction proofs generalizing toReturn with
  | nil => simp [verifyEach]
  | cons p rest ih =>
    rw [List.forall_mem_cons, ← verifyLookup_iff]
    unfold verifyEach
    cases verdict : verifyLookup secureHash limit p with
    | error e => simp [bind, Except.bind]
    | ok res =>
      change verifyEach secureHash limit (toReturn && res) rest = .ok true ↔ _
      rw [ih, Bool.and_eq_true, Except.ok.injEq, and_assoc]

/-- The public inputs of a proof repeat what is asked for a key. -/
def Carries (keccak : Digest) (values keys : List Bytes) (root : Bytes) (i : Nat)
    (p : STARKProofResult) : Prop :=
  keys[i]? = some p.publicInputs.key ∧ values[i]? = some p.publicInputs.value ∧
    keccak.hash p.publicInputs.rootHash = root

/-- The statement asked, as the public inputs of the proofs repeat it. -/
structure Bound (keccak : Digest) (values keys : List Bytes) (root : Bytes)
    (proofs : List STARKProofResult) : Prop where
  count : proofs.length = keys.length
  each : ∀ i p, proofs[i]? = some p → Carries keccak values keys root i p

theorem verifyProof_iff (secureHash : Digest) (limit : Nat) (values keys : List Bytes)
    (root w : Bytes) (proofs : List STARKProofResult) :
    verifyProof secureHash limit values keys root (proofs, w) = .ok true ↔
      ∀ p ∈ proofs, Checked secureHash limit p := by
  unfold verifyProof
  rw [verifyEach_iff]
  simp

/-- As soon as a key is asked the law fails, for no proof at all is accepted too. With one
    proof for each key it fails unless all that passes its own checks carries the whole
    statement. -/
theorem batch_bound_iff (secureHash keccak : Digest) (limit : Nat) (values keys : List Bytes)
    (root : Bytes) :
    ((∀ proofs w, verifyProof secureHash limit values keys root (proofs, w) = .ok true →
        Bound keccak values keys root proofs) ↔
      keys = [] ∧ ∀ p, ¬ Checked secureHash limit p) ∧
    ((∀ proofs w, proofs.length = keys.length →
        verifyProof secureHash limit values keys root (proofs, w) = .ok true →
        Bound keccak values keys root proofs) ↔
      ∀ p, Checked secureHash limit p → ∀ i < keys.length, Carries keccak values keys root i p) := by
  simp only [verifyProof_iff]
  constructor
  · constructor
    · intro sound
      have none : keys = [] := List.length_eq_zero_iff.mp (sound [] [] (by simp)).count.symm
      refine ⟨none, fun p checked => ?_⟩
      have one := (sound [p] [] (by simpa using checked)).count
      rw [none] at one
      cases one
    · rintro ⟨rfl, never⟩ proofs _ each
      have none : proofs = [] :=
        List.eq_nil_iff_forall_not_mem.mpr fun p member => never p (each p member)
      subst none
      exact ⟨rfl, fun i p found => by simp at found⟩
  · constructor
    · intro sound p checked i inside
      have bound := sound (List.replicate keys.length p) [] List.length_replicate
        fun q member => (List.eq_of_mem_replicate member) ▸ checked
      exact bound.each i p (by rw [List.getElem?_replicate, if_pos inside])
    · intro carries proofs _ count each
      refine ⟨count, fun i p found => ?_⟩
      obtain ⟨inside, _⟩ := List.getElem?_eq_some_iff.mp found
      exact carries p (each p (List.mem_of_getElem? found)) i (count ▸ inside)

/-- No proof at all is accepted for any statement. -/
theorem empty_batch_accepted :
    verifyProof counting 0 [[2]] [[1]] (List.replicate 32 0) ([], []) = .ok true ∧
      ¬ Bound counting [[2]] [[1]] (List.replicate 32 0) [] := by
  constructor
  · rfl
  · rintro ⟨count, _⟩
    cases count

/-- The sum of the values by growing powers of the challenge. -/
def combination (ops : FieldOps) (alpha : UInt64) : List UInt64 → UInt64 → UInt64 → UInt64
  | [], _, sum => sum
  | v :: rest, alphaPower, sum =>
    combination ops alpha rest (ops.mul alphaPower alpha) (ops.add sum (ops.mul alphaPower v))

/-- A response opens the row at its index, and its composition value is the
    combination of that row. -/
def Opens (sha256 : Digest) (ops : FieldOps) (traceCommitment : Bytes) (alpha : UInt64)
    (index : Nat) (response : QueryResponse) : Prop :=
  ∃ values columnValues path, response.traceValues = values.map toInt ∧
    response.authPaths = .given columnValues path ∧
    verifyQuery sha256 traceCommitment index values path = true ∧
    response.compositionValue = toInt (combination ops alpha values 1 0)

/-- The parts of a proof object agree. -/
def Consistent (secureHash sha256 : Digest) (ops : FieldOps) (limit : Nat)
    (result : STARKProofResult) : Prop :=
  ∃ challenges indices, Drawn secureHash limit result challenges indices ∧
    List.Forall₂ (Opens sha256 ops result.proof.traceCommitment challenges.alpha) indices
      result.proof.queryResponses ∧
    FoldsTo sha256 ops result.proof.friProof.finalPolynomial
      result.proof.friProof.layerPolynomials result.proof.friProof.layerCommitments
      challenges.alphas

def zeroRows : STARKProofResult where
  proof :=
    { traceCommitment := rowHash counting (List.replicate 8 0)
      friProof := ⟨[], [], []⟩
      queryResponses := (List.range 20).map fun index =>
        { index, traceValues := List.replicate 8 0, compositionValue := 1
          authPaths := .given (List.replicate 8 0) [] }
      compositionDegree := 20
      params := ⟨80, 1, 4, 20, FIELD_PRIME_INT⟩ }
  publicInputs := ⟨[], [], []⟩

theorem combination_zeros (alpha : UInt64) {values : List UInt64} (zeros : ∀ v ∈ values, v = 0)
    (alphaPower : UInt64) : combination goldilocks alpha values alphaPower 0 = 0 := by
  induction values generalizing alphaPower with
  | nil => rfl
  | cons v rest ih =>
    obtain ⟨rfl, later⟩ := List.forall_mem_cons.mp zeros
    have term : goldilocks.add 0 (goldilocks.mul alphaPower 0) = 0 := by
      simp [goldilocks]
    rw [combination, term, ih later]

theorem zeroRows_accepted :
    verifyLookup counting 20 zeroRows = .ok true ∧
      ¬ Consistent counting counting goldilocks 20 zeroRows := by
  constructor
  · decide +kernel
  · rintro ⟨challenges, indices, _, opens, _⟩
    change List.Forall₂ _ indices (_ :: _) at opens
    cases opens with
    | cons first _ =>
      obtain ⟨values, _, _, row, _, _, one⟩ := first
      have zeros : ∀ v ∈ values, v = 0 := by
        intro v member
        have image : toInt v ∈ values.map toInt := List.mem_map_of_mem member
        rw [← row] at image
        have zero : (v.toNat : Int) = 0 := List.eq_of_mem_replicate image
        exact UInt64.toNat_inj.mp (Int.ofNat.inj zero)
      rw [combination_zeros _ zeros] at one
      cases one

end StarkVerdicts
