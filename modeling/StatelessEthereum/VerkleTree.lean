import StatelessEthereum.VerkleSerialization
import StatelessEthereum.StateEffect
import StatelessEthereum.DiskLog
import StatelessEthereum.ObjectHeap

/- The Verkle tree over its database (tree/verkle_tree.py). Its nodes are
   objects that an insert changes in place, so they keep an identity. -/
namespace VerkleTrees
open PythonError BigEndian StateEffect PutLog DiskLog ObjectHeap VerkleSerialization
variable {Point : Type}

inductive NodeType where
  | internal
  | extension
  | suffix
  deriving DecidableEq

structure TreeNode (Point : Type) where
  type : NodeType
  children : List (Option Bytes)
  value : Option Bytes := none
  commitmentToChildren : Option Point := none
  stem : List Nat := []
  child : Option Bytes := none
  deriving DecidableEq

instance : Inhabited (TreeNode Point) := ⟨{ type := .internal, children := [] }⟩

/-- `TreeNode(width)` with its type set. -/
def newNode (width : Nat) (type : NodeType) : TreeNode Point :=
  { type := type, children := List.replicate width none }

/-- The width of a tree, the commitments of its setup and its node format. -/
structure Scheme (Point : Type) where
  width : Nat
  commit : List Nat → Except PyError Point
  commitExtension : List Nat → Option Bytes → Except PyError Point
  hashPointToField : Point → Nat
  serializeArrayNode : UInt8 → Point → List (Option Bytes) → Except PyError Bytes
  serializeExtensionNode : Point → Bytes → Option Bytes → Except PyError Bytes
  deserializeAnyNode : Bytes → Except PyError (AnyNode Point)

structure VerkleTree (Point : Type) where
  disk : Disk
  objects : Heap (TreeNode Point)
  root : Option Nat
  rootRef : Option Bytes
  deriving DecidableEq

inductive Slot where
  | child
  | index (i : Nat)
  deriving DecidableEq

/-- An entry of the stack: the parent with the slot in it, and the node. -/
structure Frame where
  parent : Option (Nat × Slot)
  node : Nat
  deriving DecidableEq

def VerkleTree.store (t : VerkleTree Point) (node : Nat) (content : TreeNode Point) :
    VerkleTree Point :=
  { t with objects := t.objects.write node content }

def VerkleTree.grow (t : VerkleTree Point) (content : TreeNode Point) : VerkleTree Point :=
  { t with objects := t.objects.alloc content }

abbrev VerkleEffect (Point : Type) := Effect (VerkleTree Point) PyError

def write (e : DiskEffect) : VerkleEffect Point Unit :=
  modify fun t => { t with disk := t.disk.apply e }

def readNode (node : Nat) : VerkleEffect Point (TreeNode Point) :=
  reads fun t => .ok (t.objects.read node)

def writeNode (node : Nat) (content : TreeNode Point) : VerkleEffect Point Unit :=
  modify fun t => t.store node content

def allocate (content : TreeNode Point) : VerkleEffect Point Nat := fun t =>
  (.ok t.objects.size, t.grow content)

/- Keys. -/

def keyChunks (width : Nat) (keyBytes : Bytes) : List Nat :=
  let bitsPerChunk := width.log2
  (List.range (256 / bitsPerChunk)).map fun i =>
    ofBytes keyBytes >>> (256 - (i + 1) * bitsPerChunk) &&& (width - 1)

def getKeyChunks (width : Nat) (keyBytes : Bytes) : Except PyError (List Nat) :=
  if width = 0 then .error (.valueError "")
  else if 2 ^ width.log2 ≠ width then .error (.valueError "Tree width must be a power of 2.")
  else if width.log2 = 0 then .error .zeroDivisionError
  else .ok (keyChunks width keyBytes)

/-- The stem and the suffix: all chunks but the last, and the last. -/
def splitKey (width : Nat) (key : Bytes) : Except PyError (List Nat × Nat) :=
  if key.length ≠ 32 then .error (.typeError "Key must be exactly 32 bytes")
  else do
    let chunks ← getKeyChunks width key
    match chunks.getLast? with
    | none => .error .indexError
    | some suffix => .ok (chunks.dropLast, suffix)

/- Lists of children. -/

def entry (children : List (Option Bytes)) (i : Nat) : Except PyError (Option Bytes) :=
  match children[i]? with
  | none => .error .indexError
  | some child => .ok child

def setEntry (children : List (Option Bytes)) (i : Nat) (b : Bytes) :
    Except PyError (List (Option Bytes)) :=
  if i < children.length then .ok (children.set i (some b)) else .error .indexError

def childValue (child : Option Bytes) : Nat := child.elim 0 ofBytes

def childValues (children : List (Option Bytes)) : List Nat := children.map childValue

section Operations
variable (scheme : Scheme Point)

/- Loading and storing. -/

def nodeValue (commitment : Point) : Except PyError Bytes :=
  intToBytes 32 (scheme.hashPointToField commitment)

def ofAnyNode : AnyNode Point → Except PyError (TreeNode Point)
  | .array flag commitment childHashes => do
    let value ← nodeValue scheme commitment
    .ok { type := if flag = PREFIX_INTERNAL then .internal else .suffix
          children := childHashes, value := some value, commitmentToChildren := some commitment }
  | .extension commitment stem childHash => do
    let value ← nodeValue scheme commitment
    .ok { type := .extension, children := List.replicate scheme.width none, value := some value
          commitmentToChildren := some commitment, stem := stem.map UInt8.toNat
          child := some childHash }

def makeTreeNode (db : Store Bytes Bytes) (reference : Option Bytes) :
    Except PyError (TreeNode Point) :=
  match reference with
  | none => .error (.typeError "")
  | some r =>
    match db.get r with
    | none => .error (.keyError ("Node not found in DB: " ++ hex r))
    | some data => do
      let node ← scheme.deserializeAnyNode data
      ofAnyNode scheme node

def encodeNode (node : TreeNode Point) (commitment : Point) : Except PyError Bytes :=
  match node.type with
  | .internal => scheme.serializeArrayNode PREFIX_INTERNAL commitment node.children
  | .suffix => scheme.serializeArrayNode PREFIX_SUFFIX commitment node.children
  | .extension => do
    let stemBytes ← bytesOf node.stem
    scheme.serializeExtensionNode commitment stemBytes node.child

def commitNode (node : TreeNode Point) : Except PyError Point :=
  match node.type with
  | .extension => scheme.commitExtension node.stem node.child
  | .internal | .suffix => scheme.commit (childValues node.children)

/- Insertion, phase 1: down the tree, with new nodes where it ends. -/

def load (reference : Option Bytes) : VerkleEffect Point Nat := do
  let content ← reads fun t => makeTreeNode scheme t.disk.db reference
  allocate content

/-- A new suffix tree with one value and a new extension above it. -/
def addGroup (parent : Nat) (slot : Nat) (stem : List Nat) (suffix : Nat) (value : Bytes)
    (stack : List Frame) : VerkleEffect Point (List Frame) := do
  let children ← lift (setEntry (List.replicate scheme.width none) suffix value)
  let suffixTree ← allocate { type := .suffix, children := children }
  let extNode ← allocate { newNode scheme.width .extension with stem := stem }
  pure (⟨some (extNode, .child), suffixTree⟩ :: ⟨some (parent, .index slot), extNode⟩ :: stack)

def matchLength : List Nat → List Nat → Nat
  | a :: as, b :: bs => if a = b then matchLength as bs + 1 else 0
  | _, _ => 0

/-- A new internal node for every shared chunk. -/
def addShared : Option (Nat × Slot) → List Nat → List Frame →
    VerkleEffect Point (Option (Nat × Slot) × List Frame)
  | parent, [], stack => pure (parent, stack)
  | parent, chunk :: rest, stack => do
    let sharedInternal ← allocate (newNode scheme.width .internal)
    addShared (some (sharedInternal, .index chunk)) rest (⟨parent, sharedInternal⟩ :: stack)

def chunkAt (stem : List Nat) (i : Nat) : Except PyError Nat :=
  match stem[i]? with
  | none => .error .indexError
  | some chunk => .ok chunk

/-- The stems part: an internal node with the old extension and a new one. -/
def diverge (node : Nat) (newStem : List Nat) (suffix : Nat) (value : Bytes)
    (stack : List Frame) : VerkleEffect Point (List Frame) := do
  let current ← readNode node
  let existingStem := current.stem
  let matched := matchLength existingStem newStem
  match stack with
  | [] => raise .indexError
  | top :: below => do
    let (parent, below) ← addShared scheme top.parent (existingStem.take matched) below
    let divergenceNode ← allocate (newNode scheme.width .internal)
    let oldDivergeChunk ← lift (chunkAt existingStem matched)
    writeNode node { current with stem := existingStem.drop (matched + 1) }
    let newDivergeChunk ← lift (chunkAt newStem matched)
    addGroup scheme divergenceNode newDivergeChunk (newStem.drop (matched + 1)) suffix value
      (⟨some (divergenceNode, .index oldDivergeChunk), node⟩ :: ⟨parent, divergenceNode⟩ :: below)

/-- `children[suffix] = value` on a suffix tree. -/
def putValue (suffixTree suffix : Nat) (value : Bytes) : VerkleEffect Point Unit := do
  let content ← readNode suffixTree
  let children ← lift (setEntry content.children suffix value)
  writeNode suffixTree { content with children := children }

/-- The loop of phase 1 at an extension: its last turn. -/
def atExtension (node : Nat) (newStem : List Nat) (suffix : Nat) (value : Bytes)
    (stack : List Frame) : VerkleEffect Point (List Frame) := do
  let current ← readNode node
  if current.stem = newStem then do
    let suffixTree ← load scheme current.child
    putValue suffixTree suffix value
    pure (⟨some (node, .child), suffixTree⟩ :: stack)
  else diverge scheme node newStem suffix value stack

/-- The loop of phase 1; the first list is what is left of the stem. -/
def descend (suffix : Nat) (value : Bytes) :
    List Nat → Nat → List Frame → VerkleEffect Point (List Frame)
  | rest, node, stack => do
    let current ← readNode node
    match current.type with
    | .internal =>
      match rest with
      | [] => raise .indexError
      | chunk :: rest => do
        match ← lift (entry current.children chunk) with
        | none => addGroup scheme node chunk rest suffix value stack
        | some childRef => do
          let nextNode ← load scheme (some childRef)
          descend suffix value rest nextNode (⟨some (node, .index chunk), nextNode⟩ :: stack)
    | .extension => atExtension scheme node rest suffix value stack
    | .suffix => do
      putValue node suffix value
      pure stack

/- Insertion, phase 2: commitments and storage, from the leaves up. -/

/-- The parent, or the tree itself, takes over the new reference. -/
def link (frame : Frame) (value : Bytes) : VerkleEffect Point Unit :=
  match frame.parent with
  | none => modify fun t => { t with root := some frame.node }
  | some (parent, .child) => do
    let content ← readNode parent
    writeNode parent { content with child := some value }
  | some (parent, .index i) => do
    let content ← readNode parent
    let children ← lift (setEntry content.children i value)
    writeNode parent { content with children := children }

def settle (frame : Frame) : VerkleEffect Point Unit := do
  let current ← readNode frame.node
  let commitment ← lift (commitNode scheme current)
  let current := { current with commitmentToChildren := some commitment }
  writeNode frame.node current
  let value ← lift (nodeValue scheme commitment)
  let current := { current with value := some value }
  writeNode frame.node current
  let encoded ← lift (encodeNode scheme current commitment)
  write (.put value encoded)
  link frame value

def ensureRoot : VerkleEffect Point Nat := do
  match ← reads fun t => .ok t.root with
  | some root => pure root
  | none => do
    let root ← allocate (newNode scheme.width .internal)
    modify fun t => { t with root := some root }
    pure root

/-- `self.root.value` -/
def rootValue (t : VerkleTree Point) : Except PyError Bytes :=
  match t.root with
  | none => .error .attributeError
  | some root =>
    match (t.objects.read root).value with
    | none => .error (.typeError "")
    | some value => .ok value

def insert (key value : Bytes) : VerkleEffect Point Unit := do
  let (stem, suffix) ← lift (splitKey scheme.width key)
  let root ← ensureRoot scheme
  let stack ← descend scheme suffix value stem root [⟨none, root⟩]
  forEach (settle scheme) stack
  write .truncateRoot
  let reference ← reads rootValue
  write (.writeRoot reference)
  modify fun t => { t with rootRef := some reference }

/- Retrieval. -/

/-- A walk that is longer meets a node twice at one depth and never ends. -/
def walkLimit (db : Store Bytes Bytes) (stem : List Nat) : Nat :=
  (db.puts.length + 2) * (stem.length + 2)

def rootNode (t : VerkleTree Point) : Option (TreeNode Point) := t.root.map t.objects.read

/-- The loop of `get`. -/
def getFrom (db : Store Bytes Bytes) (suffix : Nat) :
    Nat → TreeNode Point → List Nat → Except PyError (Option Nat)
  | 0, _, _ => .error .diverges
  | limit + 1, node, rest =>
    match node.type with
    | .internal =>
      match rest with
      | [] => .error .indexError
      | chunk :: rest => do
        match ← entry node.children chunk with
        | none => .ok none
        | some childRef => do
          let next ← makeTreeNode scheme db (some childRef)
          getFrom db suffix limit next rest
    | .extension =>
      if rest = node.stem then do
        let next ← makeTreeNode scheme db node.child
        getFrom db suffix limit next rest
      else .ok none
    | .suffix => do
      let child ← entry node.children suffix
      .ok (child.map ofBytes)

def get (t : VerkleTree Point) (key : Bytes) : Except PyError (Option Nat) := do
  let (stem, suffix) ← splitKey scheme.width key
  match rootNode t with
  | none => .ok none
  | some root => getFrom scheme t.disk.db suffix (walkLimit t.disk.db stem) root stem

/-- The loop of `get_proof_tree`: the commitments of the nodes it visits. -/
def proofFrom (db : Store Bytes Bytes) :
    Nat → TreeNode Point → List Nat → Except PyError (List (Option Point))
  | 0, _, _ => .error .diverges
  | limit + 1, node, rest =>
    match node.type with
    | .internal =>
      match rest with
      | [] => .error .indexError
      | chunk :: rest => do
        match ← entry node.children chunk with
        | none => .ok [node.commitmentToChildren]
        | some childRef => do
          let next ← makeTreeNode scheme db (some childRef)
          let proof ← proofFrom db limit next rest
          .ok (node.commitmentToChildren :: proof)
    | .extension =>
      if rest = node.stem then do
        let next ← makeTreeNode scheme db node.child
        let proof ← proofFrom db limit next rest
        .ok (node.commitmentToChildren :: proof)
      else .ok [node.commitmentToChildren]
    | .suffix => .ok [node.commitmentToChildren]

/-- The root is left out; it is the only node that can lack a commitment. -/
def getProofTree (t : VerkleTree Point) (key : Bytes) : Except PyError (List Point) := do
  let (stem, _) ← splitKey scheme.width key
  match rootNode t with
  | none => .ok []
  | some root => do
    let proof ← proofFrom scheme t.disk.db (walkLimit t.disk.db stem) root stem
    .ok ((proof.drop 1).filterMap id)

/-- The constructor: the root comes from `verkle_root_ref.bin`. -/
def openTree (disk : Disk) : Except PyError (VerkleTree Point) :=
  match disk.rootFile with
  | none | some [] => .ok ⟨disk, .empty, none, disk.rootFile⟩
  | some reference => do
    let root ← makeTreeNode scheme disk.db (some reference)
    .ok ⟨disk, ⟨[root]⟩, some 0, some reference⟩

end Operations

end VerkleTrees
