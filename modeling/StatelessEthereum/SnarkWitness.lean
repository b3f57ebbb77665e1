import StatelessEthereum.PoseidonMode

/- The batch inputs that the SNARK prover writes for the circuit
   (prover/snark_merkle_poseidon_proof.py, the HEAD side of its conflicts).
   Decimal strings are the numbers they stand for; the programs that turn an
   input file into a proof are left out. -/
namespace SnarkWitness
open PythonError BigEndian NibblePaths MerkleNodes ZkEncoding PoseidonMode
open MerkleTrees (MerklePatriciaTrie Scheme getProofTree rootHash)
open PoseidonTrie (FIELD_MOD)

def MAX_DEPTH : Nat := 10
def MAX_CHUNKS : Nat := 40
def KEYS_BATCH_SIZE : Nat := 16

structure PublicSignals where
  rootPub : Nat
  lengthPub : Nat
  valPub0 : Nat
  valPub1 : Nat
  valPub2 : Nat
  deriving DecidableEq

structure Entry where
  publics : PublicSignals
  actualDepth : Nat
  leafChunks : List Nat
  leafBatches : Nat
  nodeTypes : List Nat
  nodeNibbles : List Nat
  nodeChunks : List (List Nat)
  nodeBatches : List Nat
  deriving DecidableEq

def toField (data : Bytes) : Nat := BigEndian.ofBytes data % FIELD_MOD

def publicSignals (root value : Bytes) : PublicSignals :=
  let paddedValue := ljust value 96
  { rootPub := toField root
    lengthPub := value.length
    valPub0 := toField (slice paddedValue 0 32)
    valPub1 := toField (slice paddedValue 32 64)
    valPub2 := toField (slice paddedValue 64 96) }

/-- The padded chunks of a node and the number of batches they fill. -/
def getNodeData (node : Node) : Except PyError (List Nat × Nat) := do
  let enc ← zkEncode node
  let chunks := fieldElements enc
  let actualBatches := (chunks.length + BATCH_SIZE - 1) / BATCH_SIZE
  let paddedChunks := chunks ++ List.replicate (MAX_CHUNKS - chunks.length) 0
  if MAX_CHUNKS < paddedChunks.length then
    .error (.valueError s!"Node exceeds MAX_CHUNKS ({MAX_CHUNKS}).")
  else .ok (paddedChunks, actualBatches)

/-- How far a node moves along the key. -/
def advance : Node → Nat
  | .leaf path _ | .extension path _ => path.len
  | .branch _ _ => 1

def depthsFrom : Nat → List Node → List Nat
  | _, [] => []
  | currentDepth, node :: rest => currentDepth :: depthsFrom (currentDepth + advance node) rest

structure ParentRow where
  nodeType : Nat
  nibble : Nat
  chunks : List Nat
  batches : Nat

def parentRow (pathObj : NibblePath) (parent : Node) (d : Nat) : Except PyError ParentRow := do
  let (chunks, batches) ← getNodeData parent
  match parent with
  | .branch _ _ => do
    let nibble ← pathObj.atIndex d
    .ok { nodeType := 1, nibble, chunks, batches }
  | _ => .ok { nodeType := 0, nibble := 0, chunks, batches }

def parentRows (pathObj : NibblePath) (parentNodes : List Node) :
    Except PyError (List ParentRow) :=
  ((parentNodes.zip (depthsFrom 0 parentNodes)).reverse).mapM fun (parent, d) =>
    parentRow pathObj parent d

/-- `proof[-1]` and what stands before it. -/
def splitLast (nodes : List Node) : Except PyError (List Node × Node) :=
  match nodes.getLast? with
  | some leaf => .ok (nodes.dropLast, leaf)
  | none => .error .indexError

/-- `len` and `ljust` of a value. -/
def valueBytes : PyObj → Except PyError Bytes
  | .bytes b => .ok b
  | .list _ => .error .attributeError
  | _ => .error (.typeError "")

/-- An entry with its parent arrays filled up to the depth of the circuit. -/
def paddedEntry (publics : PublicSignals) (leafChunks : List Nat) (leafBatches : Nat)
    (rows : List ParentRow) (actualDepth : Nat) : Entry :=
  let paddingNeeded := MAX_DEPTH - actualDepth
  { publics, actualDepth, leafChunks, leafBatches
    nodeTypes := rows.map ParentRow.nodeType ++ List.replicate paddingNeeded 0
    nodeNibbles := rows.map ParentRow.nibble ++ List.replicate paddingNeeded 0
    nodeChunks := rows.map ParentRow.chunks ++
      List.replicate paddingNeeded (List.replicate MAX_CHUNKS 0)
    nodeBatches := rows.map ParentRow.batches ++ List.replicate paddingNeeded 0 }

/-- The body of the loop over the keys of a batch. -/
def batchEntry (rootHash key : Bytes) (value : PyObj) (proof : List Bytes) :
    Except PyError Entry := do
  let value ← valueBytes value
  let decodedNodes ← proof.mapM zkDecode
  let pathObj ← NibblePaths.ofBytes key 0 16
  let (parentNodes, leaf) ← splitLast decodedNodes
  let (leafChunks, leafBatches) ← getNodeData leaf
  let rows ← parentRows pathObj parentNodes
  .ok (paddedEntry (publicSignals rootHash value) leafChunks leafBatches rows parentNodes.length)

/-- `values[i:i+KEYS_BATCH_SIZE]`, filled up with its last item. -/
def chunkAt {α : Type} (items : List α) (i : Nat) : List α :=
  let chunk := (items.drop i).take KEYS_BATCH_SIZE
  match chunk.getLast? with
  | some last => chunk ++ List.replicate (KEYS_BATCH_SIZE - chunk.length) last
  | none => chunk

section Prover
variable (worker : Worker)

/-- `generate_proof` up to its batch inputs, a list of entries for each batch. -/
def generateBatches (tree : MerklePatriciaTrie) (keys : List Bytes) :
    Except PyError (List (List Entry)) := do
  let values ← keys.mapM (MerkleTrees.get (zkScheme worker) false tree)
  let proofs ← keys.mapM (getProofTree (zkScheme worker) false tree)
  let root := rootHash (zkScheme worker) tree
  let claims := keys.zip (values.zip proofs)
  (List.range ((keys.length + KEYS_BATCH_SIZE - 1) / KEYS_BATCH_SIZE)).mapM fun chunkIdx =>
    (chunkAt claims (chunkIdx * KEYS_BATCH_SIZE)).mapM fun (key, value, proof) =>
      batchEntry root key value proof

/-- The circuit's sponge over the first batches of a padded list of chunks. -/
def sponge (chunks : List Nat) (count : Nat) : Nat :=
  absorb worker 0 ((List.range count).map fun i => (chunks.drop (i * BATCH_SIZE)).take BATCH_SIZE)

end Prover

end SnarkWitness
