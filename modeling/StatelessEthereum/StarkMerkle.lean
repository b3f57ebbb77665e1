import StatelessEthereum.FriProtocol
import StatelessEthereum.MptCircuit
import Mathlib.Data.Int.Bitwise

/- The STARK prover and verifier for lookups (prover/stark_merkle.py,
   verifier/stark_verification.py, zkSTARK/security.py). Parameters that neither
   of them reads, sizes and times are left out. -/
namespace StarkMerkle
open BigEndian PythonError StateEffect LockStep FiatShamir LowDegree FriProtocol MptCircuit

/-- The verifier gets these from the proof; an entry that is missing there counts
    as zero and is refused like one. -/
structure SecurityParameters where
  securityBits : Int
  traceLength : Int
  blowupFactor : Nat
  nQueries : Int
  fieldModulus : Int
  deriving DecidableEq

/-- For an empty trace the logarithm in the number of FRI layers raises. -/
def computeParameters (targetSecurityBits : Int) (traceLength : Nat) :
    Except PyError SecurityParameters :=
  let (blowupFactor, nQueries) :=
    if 128 ≤ targetSecurityBits then (8, 80)
    else if 96 ≤ targetSecurityBits then (8, 60)
    else (4, 40)
  if traceLength = 0 then .error (.valueError "")
  else .ok { securityBits := targetSecurityBits, traceLength, blowupFactor, nQueries
             fieldModulus := FIELD_PRIME_INT }

/-- The entry `auth_paths` of a response; only the first two kinds are told
    apart from the last. -/
inductive AuthPaths where
  | missing
  /-- Present, but an empty container or `None`. -/
  | falsy
  | given (columnValues : List UInt64) (path : List Bytes)
  deriving DecidableEq

structure QueryResponse where
  index : Int
  traceValues : List Int
  compositionValue : Int
  authPaths : AuthPaths
  deriving DecidableEq

structure StarkProof where
  traceCommitment : Bytes
  friProof : FRIProof
  queryResponses : List QueryResponse
  compositionDegree : Int
  params : SecurityParameters
  deriving DecidableEq

structure STARKProofResult where
  proof : StarkProof
  publicInputs : PublicInputs
  deriving DecidableEq

/-- `int(value)` -/
def toInt (value : UInt64) : Int := value.toNat

section Protocol
variable (secureHash sha256 : Digest) (ops : FieldOps) (limit : Nat)

/-- The part of both transcripts that is written before any challenge. -/
def appendPublic (publicInputs : PublicInputs) : Talk Unit := do
  append secureHash (ascii "public_key") publicInputs.key
  append secureHash (ascii "public_value") publicInputs.value
  append secureHash (ascii "public_root") publicInputs.rootHash

/-- The loops of `_compute_composition_polynomial`. -/
def addColumns (alpha : UInt64) : List (List UInt64) → UInt64 → List UInt64 → List UInt64
  | [], _, composition => composition
  | col :: rest, alphaPower, composition =>
    addColumns alpha rest (ops.mul alphaPower alpha)
      (List.zipWith (fun c x => ops.add c (ops.mul alphaPower x)) composition col)

def computeCompositionPolynomial (traceLde : List (List UInt64)) (alpha : UInt64) : List UInt64 :=
  let n := (traceLde.headD []).length
  addColumns ops alpha traceLde 1 (List.replicate n 0)

def extendColumns (trace : ExecutionTrace) (blowupFactor : Nat) :
    Except PyError (List (List UInt64)) :=
  (List.range N_REGISTERS).mapM fun col =>
    computeLde ops (trace.traceTable.map fun row => row.cells.getD col 0) blowupFactor

def validateTrace (trace : ExecutionTrace) : Except PyError Bool :=
  if trace.nSteps &&& (trace.nSteps - 1) ≠ 0 then .ok false
  else verifyConstraints trace

def respond (traceLde : List (List UInt64)) (tree : List (List Bytes))
    (compositionPoly : List UInt64) (idx : Nat) : Except PyError QueryResponse := do
  let traceValues ← rowAt traceLde idx
  let compositionValue ← itemAt idx compositionPoly
  let (columnValues, path) ← getQueryResponse traceLde tree idx
  .ok { index := idx, traceValues := traceValues.map toInt
        compositionValue := toInt compositionValue, authPaths := .given columnValues path }

/-- `_generate_stark_proof` on a transcript that has begun. -/
def starkProof (params : SecurityParameters) (trace : ExecutionTrace) : Talk StarkProof := do
  appendPublic secureHash trace.publicInputs
  let traceLde ← lift (extendColumns ops trace params.blowupFactor)
  let tree ← lift (commitmentTree sha256 traceLde)
  let traceCommitment ← lift (topOf tree)
  append secureHash (ascii "trace_commitment") traceCommitment
  let alpha ← challenge secureHash (ascii "alpha")
  let compositionPoly := computeCompositionPolynomial ops traceLde alpha
  let friProof ← prove secureHash sha256 ops compositionPoly
  let queryIndices ← challengeIndices secureHash limit params.nQueries compositionPoly.length
  let queryResponses ← lift (queryIndices.mapM (respond traceLde tree compositionPoly))
  pure { traceCommitment, friProof, queryResponses
         compositionDegree := compositionPoly.length, params }

/-- The constructor's parameters, then `prove_lookup`. -/
def proveLookup (securityBits : Int) (traceLength : Nat) (proofNodes : List Bytes)
    (key value : Bytes) : Except PyError STARKProofResult := do
  let params ← computeParameters securityBits traceLength
  let trace ← generateTrace sha256 proofNodes key value traceLength
  let valid ← validateTrace trace
  if valid then do
    let proof ← (starkProof secureHash sha256 ops limit params trace (start secureHash none)).1
    .ok { proof, publicInputs := trace.publicInputs }
  else .error (.valueError "Invalid execution trace generated")

def verifySetup (params : SecurityParameters) : Bool :=
  if params.fieldModulus ≠ 0xFFFFFFFF00000001 then false
  else if params.traceLength = 0 ∨ Int.land params.traceLength (params.traceLength - 1) ≠ 0 then
    false
  else if params.securityBits < 80 then false
  else if params.nQueries < 20 then false
  else true

def checkResponse (response : QueryResponse) (expectedIdx : Nat) : Bool :=
  if response.index ≠ expectedIdx then false
  else if response.authPaths = .falsy then false
  else if response.traceValues.length ≠ 8 then false
  else true

def verifyQueries (proof : StarkProof) (queryIndices : List Nat) : Bool :=
  if proof.queryResponses.length ≠ queryIndices.length then false
  else (proof.queryResponses.zip queryIndices).all fun (response, expectedIdx) =>
    checkResponse response expectedIdx

/-- The query phase of `verify_lookup`. -/
def replayQueries (proof : StarkProof) : Talk Bool := do
  let queryIndices ← challengeIndices secureHash limit proof.params.nQueries
    proof.compositionDegree
  pure (verifyQueries proof queryIndices)

def replayFri (proof : StarkProof) : Talk Bool := do
  let low ← verify secureHash proof.friProof
  if low then replayQueries secureHash limit proof else pure false

/-- The body of `verify_lookup` on a transcript that has begun. -/
def replay (publicInputs : PublicInputs) (proof : StarkProof) : Talk Bool := do
  appendPublic secureHash publicInputs
  append secureHash (ascii "trace_commitment") proof.traceCommitment
  let _ ← challenge secureHash (ascii "alpha")
  replayFri secureHash limit proof

/-- `verify_lookup` turns every exception into a refusal. -/
def verifyLookup (result : STARKProofResult) : Except PyError Bool :=
  if verifySetup result.proof.params then
    match (replay secureHash limit result.publicInputs result.proof (start secureHash none)).1 with
    | .ok accepted => .ok accepted
    | .error .diverges => .error .diverges
    | .error _ => .ok false
  else .ok false

/-- The loop of `verify_proof`. -/
def verifyEach : Bool → List STARKProofResult → Except PyError Bool
  | toReturn, [] => .ok toReturn
  | toReturn, p :: rest => do
    let res ← verifyLookup secureHash limit p
    verifyEach (toReturn && res) rest

/-- `verify_proof` reads neither the values nor the keys nor the root. -/
def verifyProof (_values _keys : List Bytes) (_root : Bytes)
    (proof : List STARKProofResult × Bytes) : Except PyError Bool :=
  verifyEach secureHash limit true proof.1

end Protocol

/- An honest proof is accepted. -/
section Honest
variable {secureHash sha256 : Digest} {ops : FieldOps} {limit : Nat}

theorem respond_checked {traceLde : List (List UInt64)} {tree : List (List Bytes)}
    {compositionPoly : List UInt64} {idx : Nat} {response : QueryResponse}
    (columns : traceLde.length = N_REGISTERS)
    (run : respond traceLde tree compositionPoly idx = .ok response) :
    checkResponse response idx = true := by
  unfold respond at run
  obtain ⟨traceValues, row, run⟩ := ok_of_bind run
  obtain ⟨compositionValue, _, run⟩ := ok_of_bind run
  obtain ⟨opening, _, run⟩ := ok_of_bind run
  cases run
  have eight : (traceValues.map toInt).length = 8 := by
    rw [List.length_map, ← (mapM_inv row).length_eq, columns]
    rfl
  simp [checkResponse, eight]

theorem responses_checked {traceLde : List (List UInt64)} {tree : List (List Bytes)}
    {compositionPoly : List UInt64} {queryIndices : List Nat} {responses : List QueryResponse}
    (columns : traceLde.length = N_REGISTERS)
    (run : queryIndices.mapM (respond traceLde tree compositionPoly) = .ok responses)
    (proof : StarkProof) (given : proof.queryResponses = responses) :
    verifyQueries proof queryIndices = true := by
  subst given
  have each := (mapM_inv run).flip.imp fun _ _ answered => respond_checked columns answered
  obtain ⟨same, checked⟩ := List.forall₂_iff_zip.mp each
  unfold verifyQueries
  rw [if_neg (not_not.mpr same), List.all_eq_true]
  rintro ⟨response, expectedIdx⟩ member
  exact checked member

/-- The two transcripts agree from the public inputs to the query indices. -/
theorem starkProof_replays (params : SecurityParameters) (trace : ExecutionTrace) :
    Replays (starkProof secureHash sha256 ops limit params trace)
      (replay secureHash limit trace.publicInputs)
      fun proof accepted => proof.params = params ∧ accepted = true := by
  unfold starkProof
  apply replays_bind_same fun proof _ => do
    append secureHash (ascii "trace_commitment") proof.traceCommitment
    let _ ← challenge secureHash (ascii "alpha")
    replayFri secureHash limit proof
  intro _
  apply replays_bind_lift
  intro traceLde extended
  apply replays_bind_lift
  intro tree _
  apply replays_bind_lift
  intro traceCommitment _
  apply replays_bind_same fun proof _ => do
    let _ ← challenge secureHash (ascii "alpha")
    replayFri secureHash limit proof
  intro _
  apply replays_bind_same fun proof _ => replayFri secureHash limit proof
  intro alpha
  apply replays_bind
    (fun proof low => if low then replayQueries secureHash limit proof else pure false)
    (prove_replays _)
  intro friProof low accepted
  subst accepted
  apply replays_bind_same fun proof queryIndices => pure (verifyQueries proof queryIndices)
  intro queryIndices
  apply replays_bind_lift
  intro queryResponses answered
  have columns : traceLde.length = N_REGISTERS := by
    rw [← (mapM_inv extended).length_eq, List.length_range]
  exact replays_pure (congrArg pure (responses_checked columns answered _ rfl))
    ⟨rfl, rfl, rfl, rfl, rfl, rfl, rfl⟩

theorem computeParameters_accepted {securityBits : Int} {traceLength : Nat}
    {params : SecurityParameters} (power : traceLength.isPowerOfTwo) (secure : 80 ≤ securityBits)
    (run : computeParameters securityBits traceLength = .ok params) :
    verifySetup params = true := by
  obtain ⟨positive, exact⟩ := Nat.ne_zero_and_sub_one_eq_zero_iff_isPowerOfTwo.mpr power
  have bits : Int.land traceLength (traceLength - 1) = 0 := by
    rw [← Nat.cast_pred (Nat.pos_of_ne_zero positive)]
    exact congrArg Int.ofNat exact
  unfold computeParameters at run
  simp only [positive, if_false] at run
  cases run
  have queries : (20 : Int) ≤ (if 128 ≤ securityBits then ((8, 80) : Nat × Int)
      else if 96 ≤ securityBits then (8, 60) else (4, 40)).2 := by
    split
    · decide
    · split <;> decide
  simp only [verifySetup, FIELD_PRIME_INT, Int.natCast_eq_zero, positive, bits]
  simp [not_lt.mpr secure, not_lt.mpr queries]

theorem lookup_lockstep (secureHash sha256 : Digest) (ops : FieldOps) (limit : Nat)
    (proofNodes : List Bytes) (key value : Bytes) (securityBits : Int) (traceLength : Nat)
    (power : traceLength.isPowerOfTwo) (room : proofNodes.length + 1 < traceLength)
    (secure : 80 ≤ securityBits) :
    (∀ result,
      proveLookup secureHash sha256 ops limit securityBits traceLength proofNodes key value =
        .ok result →
      verifyLookup secureHash limit result = .ok true) ∧
    (∀ polynomial s friProof t,
      prove secureHash sha256 ops polynomial s = (.ok friProof, t) →
      verify secureHash friProof s = (.ok true, t)) ∧
    ∃ trace, generateTrace sha256 proofNodes key value traceLength = .ok trace ∧
      validateTrace trace = .ok true := by
  refine ⟨?_, ?_, ?_⟩
  · intro result run
    unfold proveLookup at run
    obtain ⟨params, set, run⟩ := ok_of_bind run
    obtain ⟨trace, _, run⟩ := ok_of_bind run
    obtain ⟨valid, _, run⟩ := ok_of_bind run
    split at run
    · obtain ⟨proof, proved, run⟩ := ok_of_bind run
      cases run
      obtain ⟨_, replayed, same, rfl⟩ :=
        starkProof_replays params trace (start secureHash none) proof _ (Prod.ext proved rfl)
      subst same
      unfold verifyLookup
      simp only [computeParameters_accepted power secure set, if_true, replayed]
    · cases run
  · intro polynomial s friProof t run
    obtain ⟨_, replayed, rfl⟩ := prove_replays polynomial s friProof t run
    exact replayed
  · obtain ⟨trace, run, steps, _, valid⟩ := generateTrace_valid sha256 key value power room
    refine ⟨trace, run, ?_⟩
    have exact := (Nat.ne_zero_and_sub_one_eq_zero_iff_isPowerOfTwo.mpr power).2
    unfold validateTrace
    rw [steps, if_neg (not_not.mpr exact), valid]

theorem sampleLookup_returns :
    ∃ result, proveLookup counting counting goldilocks 40 80 16 [[0xc0]] [0x12] [7] = .ok result := by
  have returns : (proveLookup counting counting goldilocks 40 80 16 [[0xc0]] [0x12]
      [7]).toOption.isSome = true := by decide +kernel
  obtain ⟨result, some⟩ := Option.isSome_iff_exists.mp returns
  exact ⟨result, ok_of_toOption some⟩

theorem lookup_lockstep_sample :
    ∃ result, proveLookup counting counting goldilocks 40 80 16 [[0xc0]] [0x12] [7] = .ok result ∧
      verifyLookup counting 40 result = .ok true := by
  obtain ⟨accepted, _⟩ := lookup_lockstep counting counting goldilocks 40 [[0xc0]] [0x12] [7] 80 16
    ⟨4, rfl⟩ (by decide) (by decide)
  obtain ⟨result, run⟩ := sampleLookup_returns
  exact ⟨result, run, accepted result run⟩

end Honest

end StarkMerkle
