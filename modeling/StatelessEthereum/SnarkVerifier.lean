import StatelessEthereum.SnarkWitness

/- The SNARK verifier (verifier/snark_merkle_verification.py). It hands files to
   snarkjs and looks for "OK" in what that prints. -/
namespace SnarkVerifier
open PythonError BigEndian SnarkWitness

def VKEY_PATH : String := "verification_key_batch_16.json"

section Verifier
variable {File : Type} (files : String → Option File)
  (snarkjs : Option (File → File → File → String))

/-- `"OK" in output` -/
def saysOk (output : String) : Bool := decide ("OK".toList <:+: output.toList)

/-- The loop over the pairs of paths; without the command there is no output. -/
def verifyPairs (vkey : File) : List (String × String) → Except PyError Bool
  | [] => .ok true
  | (proofPath, publicPath) :: rest =>
    match files proofPath, files publicPath with
    | some proofFile, some publicFile =>
      match snarkjs with
      | some verify =>
        if saysOk (verify vkey publicFile proofFile) then verifyPairs vkey rest else .ok false
      | none =>
        .error (.runtimeError ("The 'snarkjs' command was not found. " ++
          "Please ensure Node.js and snarkjs are installed globally."))
    | _, _ => .ok false

/-- `verify_proof` counts the keys for its messages only. -/
def verifyProof (_values _keys : List Bytes) (_root : Bytes)
    (proof : List String × List String) : Except PyError Bool :=
  match files VKEY_PATH with
  | some vkey => verifyPairs files snarkjs vkey (proof.1.zip proof.2)
  | none =>
    .error (.fileNotFoundError (s!"Verification key not found at: {VKEY_PATH}. " ++
      "Did you run 'snarkjs zkey export verificationkey'?"))

structure Passes (vkey : File) (pair : String × String) : Prop where
  passed : ∃ proofFile publicFile verify, files pair.1 = some proofFile ∧
    files pair.2 = some publicFile ∧ snarkjs = some verify ∧
    saysOk (verify vkey publicFile proofFile) = true

def Accepted (proof : List String × List String) : Prop :=
  ∃ vkey, files VKEY_PATH = some vkey ∧
    ∀ pair ∈ proof.1.zip proof.2, Passes files snarkjs vkey pair

theorem verifyPairs_iff (vkey : File) (pairs : List (String × String)) :
    verifyPairs files snarkjs vkey pairs = .ok true ↔
      ∀ pair ∈ pairs, Passes files snarkjs vkey pair := by
  induction pairs with
  | nil => simp [verifyPairs]
  | cons pair rest ih =>
    rw [List.forall_mem_cons, ← ih]
    constructor
    · intro accepted
      unfold verifyPairs at accepted
      split at accepted
      · rename_i proofFile publicFile first second
        split at accepted
        · rename_i verify
          split at accepted
          · rename_i confirmed
            exact ⟨⟨proofFile, publicFile, verify, first, second, rfl, confirmed⟩, accepted⟩
          · cases accepted
        · cases accepted
      · cases accepted
    · rintro ⟨⟨proofFile, publicFile, verify, first, second, rfl, confirmed⟩, later⟩
      simp only [verifyPairs, first, second, confirmed, later, ↓reduceIte]

theorem verifyProof_iff (values keys : List Bytes) (root : Bytes)
    (proof : List String × List String) :
    verifyProof files snarkjs values keys root proof = .ok true ↔
      Accepted files snarkjs proof := by
  unfold verifyProof Accepted
  cases files VKEY_PATH with
  | none => simp
  | some vkey => simp [verifyPairs_iff]

/-- The signals of the slot of a key are those of the statement asked; `signals` reads
    the public signals of each slot from a file. -/
def Carries (signals : File → List PublicSignals) (values : List Bytes) (root : Bytes) (i : Nat)
    (publicFile : File) : Prop :=
  ∃ value, values[i]? = some value ∧
    (signals publicFile)[i % KEYS_BATCH_SIZE]? = some (publicSignals root value)

/-- One pair of files for each batch of keys. -/
def FullCount (keys : List Bytes) (proof : List String × List String) : Prop :=
  (proof.1.zip proof.2).length = (keys.length + KEYS_BATCH_SIZE - 1) / KEYS_BATCH_SIZE

/-- The public files carry the statement asked. -/
structure Bound (signals : File → List PublicSignals) (values keys : List Bytes) (root : Bytes)
    (proof : List String × List String) : Prop where
  count : FullCount keys proof
  each : ∀ i, i < keys.length → ∃ path file, proof.2[i / KEYS_BATCH_SIZE]? = some path ∧
    files path = some file ∧ Carries signals values root i file

def Confirms (vkey publicFile proofFile : File) : Prop :=
  ∃ verify, snarkjs = some verify ∧ saysOk (verify vkey publicFile proofFile) = true

def threeFiles (vkey publicFile proofFile : File) (path : String) : Option File :=
  if path = VKEY_PATH then some vkey
  else if path = "proof.json" then some proofFile
  else some publicFile

variable {snarkjs}

theorem confirmed_accepted {vkey publicFile proofFile : File}
    (confirmed : Confirms snarkjs vkey publicFile proofFile) (n : Nat) :
    Accepted (threeFiles vkey publicFile proofFile) snarkjs
      (List.replicate n "proof.json", List.replicate n "public.json") := by
  refine ⟨vkey, rfl, ?_⟩
  intro pair member
  rw [List.zip_replicate', List.mem_replicate] at member
  obtain ⟨_, rfl⟩ := member
  obtain ⟨verify, rfl, confirmed⟩ := confirmed
  have first : threeFiles vkey publicFile proofFile "proof.json" = some proofFile := by
    rw [threeFiles, if_neg (by decide), if_pos rfl]
  have second : threeFiles vkey publicFile proofFile "public.json" = some publicFile := by
    rw [threeFiles, if_neg (by decide), if_neg (by decide)]
  exact ⟨⟨proofFile, publicFile, verify, first, second, rfl, confirmed⟩⟩

theorem passes_confirms {files : String → Option File} {vkey : File} {pair : String × String}
    (passes : Passes files snarkjs vkey pair) :
    ∃ publicFile proofFile, files pair.2 = some publicFile ∧
      Confirms snarkjs vkey publicFile proofFile := by
  obtain ⟨proofFile, publicFile, verify, _, held, installed, confirmed⟩ := passes.passed
  exact ⟨publicFile, proofFile, held, verify, installed, confirmed⟩

variable (snarkjs) in
/-- As soon as a key is asked the law fails, for no proof at all is accepted too. With the
    right number of proofs it is up to snarkjs: it must confirm only public files that carry
    the statement at the slots of all keys. -/
theorem snark_bound_iff (signals : File → List PublicSignals) (vkey : File)
    (values keys : List Bytes) (root : Bytes) :
    ((∀ files, files VKEY_PATH = some vkey → ∀ proof,
        verifyProof files snarkjs values keys root proof = .ok true →
          Bound files signals values keys root proof) ↔
      keys = [] ∧ ∀ publicFile proofFile, ¬ Confirms snarkjs vkey publicFile proofFile) ∧
    ((∀ files, files VKEY_PATH = some vkey → ∀ proof, FullCount keys proof →
        verifyProof files snarkjs values keys root proof = .ok true →
          Bound files signals values keys root proof) ↔
      ∀ publicFile proofFile, Confirms snarkjs vkey publicFile proofFile →
        ∀ i < keys.length, Carries signals values root i publicFile) := by
  have some : 0 < KEYS_BATCH_SIZE := by decide
  simp only [verifyProof_iff]
  constructor
  · constructor
    · intro sound
      have none : keys = [] := by
        have count := (sound (fun _ => .some vkey) rfl ([], []) ⟨vkey, rfl, by simp⟩).count
        have few := (Nat.div_eq_zero_iff_lt some).mp count.symm
        exact List.length_eq_zero_iff.mp (by omega)
      refine ⟨none, fun publicFile proofFile confirmed => ?_⟩
      have count := (sound _ rfl _ (confirmed_accepted confirmed 1)).count
      rw [FullCount, none] at count
      exact absurd count (by decide)
    · rintro ⟨rfl, never⟩ files known proof ⟨vkey', held, each⟩
      cases known.symm.trans held
      constructor
      · cases pairs : proof.1.zip proof.2 with
        | nil =>
          rw [FullCount, pairs]
          decide
        | cons pair rest =>
          obtain ⟨publicFile, proofFile, _, confirmed⟩ :=
            passes_confirms (each pair (by simp [pairs]))
          exact absurd confirmed (never publicFile proofFile)
      · intro i inside
        exact absurd inside (Nat.not_lt_zero i)
  · have batch {i : Nat} (inside : i < keys.length) :
        i / KEYS_BATCH_SIZE < (keys.length + KEYS_BATCH_SIZE - 1) / KEYS_BATCH_SIZE := by
      rw [Nat.div_lt_iff_lt_mul some]
      have split := Nat.div_add_mod (keys.length + KEYS_BATCH_SIZE - 1) KEYS_BATCH_SIZE
      have small := Nat.mod_lt (keys.length + KEYS_BATCH_SIZE - 1) some
      rw [Nat.mul_comm] at split
      omega
    constructor
    · intro sound publicFile proofFile confirmed i inside
      have full : FullCount keys
          (List.replicate ((keys.length + KEYS_BATCH_SIZE - 1) / KEYS_BATCH_SIZE) "proof.json",
            List.replicate ((keys.length + KEYS_BATCH_SIZE - 1) / KEYS_BATCH_SIZE) "public.json") := by
        rw [FullCount, List.zip_replicate', List.length_replicate]
      obtain ⟨path, file, listed, held, carries⟩ :=
        (sound _ rfl _ full (confirmed_accepted confirmed _)).each i inside
      rw [List.getElem?_replicate, if_pos (batch inside)] at listed
      cases listed
      cases held
      exact carries
    · intro carries files known proof full ⟨vkey', held, each⟩
      cases known.symm.trans held
      refine ⟨full, fun i inside => ?_⟩
      have place : i / KEYS_BATCH_SIZE < (proof.1.zip proof.2).length := full ▸ batch inside
      have pair := List.getElem?_eq_getElem place
      obtain ⟨_, listed⟩ := List.getElem?_zip_eq_some.mp pair
      obtain ⟨publicFile, proofFile, held, confirmed⟩ :=
        passes_confirms (each _ (List.getElem_mem place))
      exact ⟨_, publicFile, listed, held, carries publicFile proofFile confirmed i inside⟩

end Verifier

/- A proof for another root is accepted. -/

/-- Every path holds a file that repeats the signals of the value 3 under a root
    of zeros. -/
def otherFiles (_ : String) : Option (List PublicSignals) :=
  some (List.replicate 16 (publicSignals (List.replicate 32 0) [3]))

theorem other_signals_accepted :
    verifyProof otherFiles (some fun _ _ _ => "[INFO]  snarkJS: OK!") [[2]] [[1]]
        (List.replicate 32 1) (["proof.json"], ["public.json"]) = .ok true ∧
      ¬ Bound otherFiles id [[2]] [[1]] (List.replicate 32 1)
        (["proof.json"], ["public.json"]) := by
  constructor
  · decide
  · rintro ⟨_, each⟩
    obtain ⟨path, file, _, held, value, here, slot⟩ := each 0 (by decide)
    cases here
    cases held
    revert slot
    decide

end SnarkVerifier
