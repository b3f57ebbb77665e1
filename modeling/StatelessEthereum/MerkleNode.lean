import StatelessEthereum.NibblePath
import StatelessEthereum.RlpFormat

/- Nodes of the Merkle trie and their RLP form (merkle/node.py). What a field
   of a decoded node holds depends on the bytes it came from, so the fields
   keep every kind of object that the decoder can put there. -/
namespace MerkleNodes
open PythonError BigEndian RlpFormat NibblePaths

inductive PyObj where
  | none : PyObj
  | int : Nat → PyObj
  | bytes : Bytes → PyObj
  | list : List Item → PyObj

namespace PyObj

def ofItem : Item → PyObj
  | .str b => .bytes b
  | .list xs => .list xs

/-- How an object is serialised inside a list; integers are big-endian. -/
def toItem : PyObj → Except PyError Item
  | .none => .error (.typeError "")
  | .int n => .ok (.str (minimal n))
  | .bytes b => .ok (.str b)
  | .list xs => .ok (.list xs)

def truthy : PyObj → Bool
  | .none => false
  | .int n => n != 0
  | .bytes b => !b.isEmpty
  | .list xs => !xs.isEmpty

def len : PyObj → Except PyError Nat
  | .bytes b => .ok b.length
  | .list xs => .ok xs.length
  | _ => .error (.typeError "")

def isBytes (o : PyObj) (b : Bytes) : Bool :=
  match o with
  | .bytes a => a == b
  | _ => false

end PyObj

def entry (xs : List PyObj) (idx : Nat) : Except PyError PyObj :=
  match xs[idx]? with
  | some x => .ok x
  | none => .error .indexError

theorem entry_member {xs : List PyObj} {idx : Nat} {x : PyObj} (held : entry xs idx = .ok x) :
    x ∈ xs := by
  unfold entry at held
  split at held
  · rename_i found
    cases held
    exact List.mem_of_getElem? found
  · cases held

/-- Assigning to an index of a list of objects. -/
def setEntry (xs : List PyObj) (idx : Nat) (x : PyObj) : Except PyError (List PyObj) :=
  if idx < xs.length then .ok (xs.set idx x) else .error .indexError

def rlpEncode (x : Item) : Except PyError Bytes :=
  if x.Fits then .ok x.encode else .error (.valueError "Length greater than 256**8")

def rlpDecode (b : Bytes) : Except PyError Item :=
  match decode b with
  | some x => .ok x
  | none => .error .decodingError

inductive Node where
  | leaf (path : NibblePath) (data : PyObj)
  | extension (path : NibblePath) (nextRef : PyObj)
  | branch (branches : List PyObj) (data : PyObj)

def prepareReferenceForUsage : PyObj → Except PyError PyObj
  | .list xs => do
    let encoded ← rlpEncode (.list xs)
    .ok (.bytes encoded)
  | ref => .ok ref

def prepareReferenceForEncoding (ref : PyObj) : Except PyError PyObj := do
  let length ← ref.len
  if 0 < length ∧ length < 32 then
    match ref with
    | .bytes b => do
      let item ← rlpDecode b
      .ok (.ofItem item)
    | _ => .error .decodingError
  else .ok ref

def rlpEncodeList (xs : List PyObj) : Except PyError Bytes := do
  let items ← xs.mapM PyObj.toItem
  rlpEncode (.list items)

namespace Node

def encode : Node → Except PyError Bytes
  | .leaf path data => do
    let encodedPath ← path.encode true
    rlpEncodeList [.bytes encodedPath, data]
  | .extension path nextRef => do
    let nextRef ← prepareReferenceForEncoding nextRef
    let encodedPath ← path.encode false
    rlpEncodeList [.bytes encodedPath, nextRef]
  | .branch branches data => do
    let branches ← branches.mapM prepareReferenceForEncoding
    rlpEncodeList (branches ++ [data])

/-- The first of two entries as a path: only a byte string can be one. -/
def decodePath : Item → Except PyError (NibblePath × Bool)
  | .str b => decodeWithType b
  | .list [] => .error (.valueError "Cannot decode empty path")
  | .list _ => .error (.typeError "")

/-- An encoding that is a byte string and not a list: indexing it gives
    integers, so two bytes are no node and more are a branch of integers. -/
def decodeString (b : Bytes) : Except PyError Node :=
  if b.length = 2 then .error (.typeError "")
  else if b.length < 3 then .error (.valueError "Invalid RLP node length")
  else
    .ok (.branch (b.dropLast.map fun x => .int x.toNat) (.int (b.getLastD 0).toNat))

def decodeList (data : List Item) : Except PyError Node :=
  match data with
  | [first, second] => do
    let (path, isLeaf) ← decodePath first
    if isLeaf then .ok (.leaf path (.ofItem second))
    else do
      let ref ← prepareReferenceForUsage (.ofItem second)
      .ok (.extension path ref)
  | _ =>
    if data.length < 3 then .error (.valueError "Invalid RLP node length")
    else do
      let branches ← data.dropLast.mapM fun x => prepareReferenceForUsage (.ofItem x)
      .ok (.branch branches (.ofItem (data.getLastD (.str []))))

def decode (encodedData : Bytes) : Except PyError Node := do
  match ← rlpDecode encodedData with
  | .str b => decodeString b
  | .list data => decodeList data

end Node

def intoReferenceFromEncoded (hash : Bytes → Bytes) (encodedNode : Bytes) : Bytes :=
  if 32 ≤ encodedNode.length then hash encodedNode else encodedNode

def intoReference (hash : Bytes → Bytes) (node : Node) : Except PyError Bytes := do
  let encodedNode ← node.encode
  .ok (if encodedNode.length < 32 then encodedNode else hash encodedNode)

/-- `keccak_hash(rlp.encode(b''))`, whatever the hash of the trie is. -/
def EMPTY_HASH : Bytes :=
  toBytes 32 0x56e81f171bcc55a6ff8345e692c0f86e5b48e01b996cadc001622fb5e363b421

end MerkleNodes
