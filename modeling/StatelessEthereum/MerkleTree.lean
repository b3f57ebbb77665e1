import StatelessEthereum.MerkleNode
import StatelessEthereum.StateEffect
import StatelessEthereum.DiskLog

/- The Merkle trie over its database (tree/merkle_tree.py). -/
namespace MerkleTrees
open PythonError BigEndian NibblePaths MerkleNodes StateEffect PutLog DiskLog

/-- The hash of a trie and the node format that goes with it. -/
structure Scheme where
  hash : Bytes → Bytes
  encode : Node → Except PyError Bytes
  reference : Node → Except PyError Bytes
  decode : Bytes → Except PyError Node

/-- `hash_fn = "keccak"`. -/
def keccakScheme (keccak : Bytes → Bytes) : Scheme where
  hash := keccak
  encode := Node.encode
  reference := intoReference keccak
  decode := Node.decode

@[simp] theorem keccakScheme_decode (keccak : Bytes → Bytes) :
    (keccakScheme keccak).decode = Node.decode := rfl

structure MerklePatriciaTrie where
  disk : Disk
  rootRef : Option Bytes
  rootValue : Option Bytes
  deriving DecidableEq

/-- The constructor: the root reference comes from `merkle_root_ref.bin`. -/
def openTrie (disk : Disk) : MerklePatriciaTrie := ⟨disk, disk.rootFile, disk.rootFile⟩

abbrev TrieEffect := Effect MerklePatriciaTrie PyError

def write (e : DiskEffect) : TrieEffect Unit := modify fun t => { t with disk := t.disk.apply e }

def asReference : Option Bytes → PyObj
  | none => .none
  | some r => .bytes r

section Operations
variable (scheme : Scheme)

def storeNode (node : Node) : TrieEffect Bytes := do
  let reference ← lift (scheme.reference node)
  let encoded ← lift (scheme.encode node)
  if reference.length = 32 then write (.put reference encoded)
  pure reference

def getNode (db : Store Bytes Bytes) (reference : PyObj) : Except PyError Node :=
  match reference with
  | .bytes r =>
    match db.get r with
    | none => .error (.keyError ("Node not found: " ++ hex r))
    | some data => scheme.decode data
  | _ => .error (.typeError "")

def createBranchLeaf (path : NibblePath) (value : PyObj) (branches : List PyObj) :
    TrieEffect (List PyObj) := do
  if 0 < path.len then
    let idx ← lift (path.atIndex 0)
    let leafRef ← storeNode scheme (.leaf (path.consume 1) value)
    lift (setEntry branches idx (.bytes leafRef))
  else pure branches

def createBranchExtension (path : NibblePath) (nextRef : PyObj) (branches : List PyObj) :
    TrieEffect (List PyObj) := do
  if path.len < 1 then
    raise (.assertionError "Path for extension node should contain at least one nibble")
  else if path.len = 1 then
    let idx ← lift (path.atIndex 0)
    lift (setEntry branches idx nextRef)
  else
    let idx ← lift (path.atIndex 0)
    let ref ← storeNode scheme (.extension (path.consume 1) nextRef)
    lift (setEntry branches idx (.bytes ref))

def emptyBranches : List PyObj := List.replicate 16 (.bytes [])

def createBranchNode (pathA : NibblePath) (valueA : PyObj) (pathB : NibblePath)
    (valueB : PyObj) : TrieEffect Bytes := do
  if pathA.len = 0 ∧ pathB.len = 0 then raise (.assertionError "")
  else
    let branchValue :=
      if pathA.len = 0 then valueA else if pathB.len = 0 then valueB else .bytes []
    let branches ← createBranchLeaf scheme pathA valueA emptyBranches
    let branches ← createBranchLeaf scheme pathB valueB branches
    storeNode scheme (.branch branches branchValue)

/-- An extension above a branch, unless it would cover no path. -/
def storeAbove (commonPrefix : NibblePath) (branchRef : Bytes) : TrieEffect Bytes :=
  if commonPrefix.len ≠ 0 then storeNode scheme (.extension commonPrefix (.bytes branchRef))
  else pure branchRef

/-- `_update` at a leaf. -/
def updateLeaf (nodePath : NibblePath) (data : PyObj) (path : NibblePath) (value : Bytes) :
    TrieEffect Bytes :=
  if nodePath.eq path then storeNode scheme (.leaf nodePath (.bytes value))
  else do
    let commonPrefix := path.commonPrefix nodePath
    let path := path.consume commonPrefix.len
    let nodePath := nodePath.consume commonPrefix.len
    let branchRef ← createBranchNode scheme path (.bytes value) nodePath data
    storeAbove scheme commonPrefix branchRef

/-- `_update` at an extension; `next` updates what the extension leads to. -/
def updateExtension (next : PyObj → NibblePath → TrieEffect Bytes) (nodePath : NibblePath)
    (nextRef : PyObj) (path : NibblePath) (value : Bytes) : TrieEffect Bytes :=
  if path.startsWith nodePath then do
    let newRef ← next nextRef (path.consume nodePath.len)
    storeNode scheme (.extension nodePath (.bytes newRef))
  else do
    let commonPrefix := path.commonPrefix nodePath
    let path := path.consume commonPrefix.len
    let nodePath := nodePath.consume commonPrefix.len
    let branchValue : PyObj := if path.len = 0 then .bytes value else .bytes []
    let branches ← createBranchLeaf scheme path (.bytes value) emptyBranches
    let branches ← createBranchExtension scheme nodePath nextRef branches
    let branchRef ← storeNode scheme (.branch branches branchValue)
    storeAbove scheme commonPrefix branchRef

/-- `_update` at a branch; `next` updates a child. -/
def updateBranch (next : PyObj → NibblePath → TrieEffect Bytes) (branches : List PyObj)
    (data : PyObj) (path : NibblePath) (value : Bytes) : TrieEffect Bytes :=
  if path.len = 0 then storeNode scheme (.branch branches (.bytes value))
  else do
    let idx ← lift (path.atIndex 0)
    let child ← lift (entry branches idx)
    let newRef ← next child (path.consume 1)
    storeNode scheme (.branch (branches.set idx (.bytes newRef)) data)

/-- The recursion of `_update`. Every level of a trie without empty extensions
    consumes a digit, so its depth is at most the path length. -/
def update : Nat → PyObj → NibblePath → Bytes → TrieEffect Bytes
  | 0, _, _, _ => raise .recursionError
  | depth + 1, nodeRef, path, value => do
    if !nodeRef.truthy then storeNode scheme (.leaf path (.bytes value))
    else
      let next := fun ref rest => update depth ref rest value
      match ← reads fun t => getNode scheme t.disk.db nodeRef with
      | .leaf nodePath data => updateLeaf scheme nodePath data path value
      | .extension nodePath nextRef => updateExtension scheme next nodePath nextRef path value
      | .branch branches data => updateBranch scheme next branches data path value

/-- The key as the trie uses it; secure mode hashes it. -/
def keyPath (secure : Bool) (key : Bytes) : Except PyError NibblePath :=
  NibblePaths.ofBytes (if secure then scheme.hash key else key) 0 16

def insert (secure : Bool) (key value : Bytes) : TrieEffect Unit := do
  let path ← lift (keyPath scheme secure key)
  let root ← reads fun t => .ok t.rootRef
  let newRootRef ← update scheme (path.len + 1) (asReference root) path value
  modify fun t => { t with rootRef := some newRootRef }
  write .truncateRoot
  write (.writeRoot newRootRef)
  modify fun t => { t with rootValue := some newRootRef }

/-- The recursion of `_get`: the node at which the path ends or matches. -/
def getFrom (db : Store Bytes Bytes) : Nat → PyObj → NibblePath → Except PyError Node
  | 0, _, _ => .error .recursionError
  | depth + 1, nodeRef, path => do
    let node ← getNode scheme db nodeRef
    if path.len = 0 then .ok node
    else
      match node with
      | .leaf nodePath _ =>
        if nodePath.eq path then .ok node else .error (.keyError "Key not found in MPT")
      | .extension nodePath nextRef =>
        if path.startsWith nodePath then getFrom db depth nextRef (path.consume nodePath.len)
        else .error (.keyError "Key not found in MPT")
      | .branch branches _ => do
        let idx ← path.atIndex 0
        let branchRef ← entry branches idx
        let length ← branchRef.len
        if 0 < length then getFrom db depth branchRef (path.consume 1)
        else .error (.keyError "Key not found in MPT")

/-- The `data` of a node; an extension has no such attribute. -/
def nodeData (message : String) : Node → Except PyError PyObj
  | .leaf _ data | .branch _ data =>
    match data with
    | .none => .error (.keyError message)
    | data => .ok data
  | .extension _ _ => .error (.keyError message)

def get (secure : Bool) (t : MerklePatriciaTrie) (key : Bytes) : Except PyError PyObj := do
  match t.rootRef with
  | none => .error (.keyError "Empty trie")
  | some rootRef => do
    let path ← keyPath scheme secure key
    let node ← getFrom scheme t.disk.db (path.len + 1) (.bytes rootRef) path
    nodeData "Key not found (no data at terminal node)" node

/-- What `_collect` takes as the encoding of a reference. -/
def collectEncoded (db : Store Bytes Bytes) (nodeRef : PyObj) : Except PyError Bytes := do
  let length ← nodeRef.len
  match nodeRef with
  | .bytes r =>
    if length = 32 then
      match db.get r with
      | none => .error .decodingError
      | some encoded => .ok encoded
    else .ok r
  | _ => .error (if length = 32 then .typeError "" else .decodingError)

/-- The recursion of `_collect`: the encoded nodes on the way, and the last. -/
def collect (db : Store Bytes Bytes) :
    Nat → PyObj → NibblePath → Except PyError (List Bytes × Node)
  | 0, _, _ => .error .recursionError
  | depth + 1, nodeRef, path => do
    let encodedNode ← collectEncoded db nodeRef
    let node ← scheme.decode encodedNode
    match node with
    | .leaf nodePath _ =>
      if nodePath.eq path then .ok ([encodedNode], node)
      else
        .error (.keyError
          s!"Key not found: leaf path mismatch (expected {path.str}, got {nodePath.str})")
    | .extension nodePath nextRef =>
      if path.len = 0 then
        .error (.keyError "Key not found: path exhausted but not at valid terminal")
      else if !path.startsWith nodePath then
        .error (.keyError (s!"Key not found: extension path mismatch (path {path.str} " ++
          s!"doesn't start with {nodePath.str})"))
      else do
        let (nodes, last) ← collect db depth nextRef (path.consume nodePath.len)
        .ok (encodedNode :: nodes, last)
    | .branch branches data =>
      if path.len = 0 then
        match data with
        | .none => .error (.keyError "Key not found: no value at branch node")
        | _ => .ok ([encodedNode], node)
      else do
        let idx ← path.atIndex 0
        let childRef ← entry branches idx
        let length ← childRef.len
        if length = 0 then .error (.keyError s!"Key not found: missing branch at index {idx}")
        else do
          let (nodes, last) ← collect db depth childRef (path.consume 1)
          .ok (encodedNode :: nodes, last)

def getProofTree (secure : Bool) (t : MerklePatriciaTrie) (key : Bytes) :
    Except PyError (List Bytes) :=
  match t.rootRef with
  | none => .error (.keyError "Empty trie")
  | some rootRef => do
    let path ← keyPath scheme secure key
    let (proofNodes, finalNode) ← collect scheme t.disk.db (path.len + 1) (.bytes rootRef) path
    let _ ← nodeData "Key not found: no value at terminal node" finalNode
    .ok proofNodes

def rootHash (t : MerklePatriciaTrie) : Bytes :=
  match t.rootRef with
  | none => EMPTY_HASH
  | some [] => EMPTY_HASH
  | some rootRef => if rootRef.length = 32 then rootRef else scheme.hash rootRef

end Operations

end MerkleTrees
