import StatelessEthereum.MerkleTree

/- The plain Merkle prover and verifier (prover/merkle_proof.py,
   verifier/merkle_verification.py). The verifier prints a line before it
   rejects; printing an object that is no byte string in hexadecimal raises. -/
namespace MerkleVerifiers
open PythonError BigEndian NibblePaths MerkleNodes MerkleTrees PutLog

def generateProof (scheme : Scheme) (secure : Bool) (tree : MerklePatriciaTrie)
    (keys : List Bytes) : Except PyError (List (List Bytes) × Bytes) := do
  let commitments ← keys.mapM (getProofTree scheme secure tree)
  .ok (commitments, rootHash scheme tree)

def printHex : PyObj → Except PyError Unit
  | .bytes _ => .ok ()
  | _ => .error .attributeError

section Verifier
variable (keccak : Bytes → Bytes)

def linked (ref : PyObj) : List Bytes → Bool
  | [] => true
  | next :: _ => ref.isBytes (intoReferenceFromEncoded keccak next)

def walkProof (expectedValue : Bytes) : List Bytes → NibblePath → Except PyError Bool
  | [], _ => .ok false
  | encodedNode :: rest, path =>
    match Node.decode encodedNode with
    | .error _ => .ok false
    | .ok (.leaf nodePath data) =>
      if !nodePath.eq path then .ok false
      else if !data.isBytes expectedValue then do
        printHex data
        .ok false
      else .ok true
    | .ok (.extension nodePath nextRef) =>
      if !path.startsWith nodePath then .ok false
      else if !linked keccak nextRef rest then .ok false
      else walkProof expectedValue rest (path.consume nodePath.len)
    | .ok (.branch branches data) =>
      if path.len = 0 then .ok (data.isBytes expectedValue)
      else do
        let idx ← path.atIndex 0
        let branchRef ← entry branches idx
        let length ← branchRef.len
        if length = 0 then .ok false
        else if !linked keccak branchRef rest then do
          printHex branchRef
          .ok false
        else walkProof expectedValue rest (path.consume 1)

/-- `_verify_single_proof`: only a first node of 32 bytes or more is hashed and
    compared with the root. -/
def verifySingleProof (proofNodes : List Bytes) (key expectedValue : Bytes)
    (rootHash : Option Bytes) : Except PyError Bool :=
  match proofNodes with
  | [] => .ok false
  | firstNodeEncoded :: _ => do
    let path ← NibblePaths.ofBytes key 0 16
    let computedHash := intoReferenceFromEncoded keccak firstNodeEncoded
    if computedHash.length = 32 ∧ some computedHash ≠ rootHash then do
      printHex (asReference rootHash)
      .ok false
    else walkProof keccak expectedValue proofNodes path

def verifyEach (rootHash : Option Bytes) :
    List (List Bytes × Bytes × Bytes) → Except PyError Bool
  | [] => .ok true
  | (proofNodes, key, expectedValue) :: rest => do
    if ← verifySingleProof keccak proofNodes key expectedValue rootHash then
      verifyEach rootHash rest
    else .ok false

/-- `verify_proof`; the three lists are read together up to the shortest. -/
def verifyProof (values keys : List Bytes) (rootHash : Option Bytes)
    (proof : List (List Bytes) × Bytes) : Except PyError Bool := do
  let (commitments, witness) := proof
  if some witness ≠ rootHash then do
    printHex (asReference rootHash)
    .ok false
  else verifyEach keccak rootHash (commitments.zip (keys.zip values))

end Verifier

end MerkleVerifiers
