import StatelessEthereum.MerkleForm

/- The node format of the Poseidon mode (zkSNARK/zk_encoder_decoder.py): every
   field is filled up to whole chunks of 32 bytes. -/
namespace ZkEncoding
open PythonError BigEndian MerkleNodes MerkleForms
open NibblePaths hiding ofBytes

/-- `data[start:stop]` -/
def slice (data : Bytes) (start stop : Nat) : Bytes := (data.drop start).take (stop - start)

/-- `data.ljust(length, b'\0')` -/
def ljust (data : Bytes) (length : Nat) : Bytes := data ++ List.replicate (length - data.length) 0

def ZEROS : Bytes := List.replicate 32 0

/-- `node.data if node.data else b''` -/
def safeData (data : PyObj) : Except PyError Bytes :=
  match data with
  | .bytes b => .ok b
  | .list (_ :: _) => .error .attributeError
  | data => if data.truthy then .error (.typeError "") else .ok []

/-- `res += b` -/
def referenceBytes (reference : PyObj) : Except PyError Bytes :=
  match reference with
  | .bytes b => .ok b
  | _ => .error (.typeError "")

def branchBytes (reference : PyObj) : Except PyError Bytes :=
  if reference.truthy then referenceBytes reference else .ok ZEROS

def zkEncode : Node → Except PyError Bytes
  | .leaf path data => do
    let pathBytes ← path.encode true
    let safeData ← safeData data
    .ok (toBytes 32 1 ++ toBytes 32 pathBytes.length ++ ljust pathBytes 64 ++
      toBytes 32 safeData.length ++ ljust safeData 96)
  | .extension path nextRef => do
    let pathBytes ← path.encode false
    let nextRef ← referenceBytes nextRef
    .ok (toBytes 32 2 ++ toBytes 32 pathBytes.length ++ ljust pathBytes 64 ++ nextRef)
  | .branch branches data => do
    let slots ← branches.mapM branchBytes
    let safeData ← safeData data
    .ok (toBytes 32 3 ++ slots.flatten ++ toBytes 32 safeData.length ++ ljust safeData 96)

def decodePathBytes (data : Bytes) : Except PyError NibblePath := do
  let pathLen := ofBytes (slice data 32 64)
  let (path, _) ← decodeWithType (slice data 64 (64 + pathLen))
  .ok path

/-- One of the 16 branches: chunks of zeros stand for none. -/
def decodeBranch (data : Bytes) (i : Nat) : PyObj :=
  let b := slice data (32 + i * 32) (64 + i * 32)
  if b ≠ ZEROS then .bytes b else .bytes []

def zkDecode (data : Bytes) : Except PyError Node :=
  let nodeType := ofBytes (slice data 0 32)
  if nodeType = 1 then do
    let path ← decodePathBytes data
    let dataLen := ofBytes (slice data 128 160)
    .ok (.leaf path (.bytes (slice data 160 (160 + dataLen))))
  else if nodeType = 2 then do
    let path ← decodePathBytes data
    .ok (.extension path (.bytes (slice data 128 160)))
  else if nodeType = 3 then
    let branches := (List.range 16).map (decodeBranch data)
    let dataLen := ofBytes (slice data 544 576)
    .ok (.branch branches (.bytes (slice data 576 (576 + dataLen))))
  else .error (.valueError s!"Unknown ZK node type: {nodeType}")

/- Fields at fixed places. -/

theorem ljust_length {data : Bytes} {length : Nat} (fits : data.length ≤ length) :
    (ljust data length).length = length := by
  simp only [ljust, List.length_append, List.length_replicate]
  omega

theorem slice_within {field rest : Bytes} {stop : Nat} (short : stop ≤ field.length) :
    slice (field ++ rest) 0 stop = field.take stop := by
  rw [slice, List.drop_zero, Nat.sub_zero, List.take_append_of_le_length short]

theorem slice_field {field : Bytes} (rest : Bytes) {stop : Nat} (size : field.length = stop) :
    slice (field ++ rest) 0 stop = field := by
  rw [slice_within (Nat.le_of_eq size.symm), ← size, List.take_length]

/-- A field at the front moves all others by its length. -/
theorem slice_behind {field rest : Bytes} {start stop size : Nat} (length : field.length = size)
    (behind : size ≤ start) : slice (field ++ rest) start stop = slice rest (start - size) (stop - size) := by
  subst length
  have split : start = field.length + (start - field.length) := by omega
  rw [slice, slice, split, List.drop_append, List.drop_eq_nil_of_le (by omega), List.nil_append,
    show field.length + (start - field.length) - field.length = start - field.length by omega]
  congr 1
  omega

theorem slice_data (data rest : Bytes) (length : Nat) :
    slice (ljust data length ++ rest) 0 data.length = data := by
  rw [ljust, List.append_assoc, slice_field _ rfl]

theorem slice_chunk {chunks : List Bytes} (sized : ∀ c ∈ chunks, c.length = 32) (rest : Bytes)
    {i : Nat} (inside : i < chunks.length) :
    slice (chunks.flatten ++ rest) (i * 32) (i * 32 + 32) = chunks[i] := by
  induction chunks generalizing i with
  | nil => simp at inside
  | cons c chunks ih =>
    have size := sized c List.mem_cons_self
    rw [List.flatten_cons, List.append_assoc]
    cases i with
    | zero =>
      rw [Nat.zero_mul, Nat.zero_add, slice_field _ size]
      rfl
    | succ i =>
      have later := ih (fun c member => sized c (List.mem_cons_of_mem _ member))
        (by simpa using inside)
      rw [slice_behind size (by omega), List.getElem_cons_succ, ← later]
      congr 1 <;> omega

/- What is stored is loaded again. -/

def zkLimits : Limits where
  PathOk p := (∀ d ∈ p, d < 16) ∧ p.length ≤ 64
  ValueOk v := v.length ≤ 96
  RefOk r := r.length = 32 ∧ r ≠ ZEROS
  digits _ valid := valid.1
  infixes _ _ part valid :=
    ⟨fun d member => valid.1 d (part.subset member), part.length_le.trans valid.2⟩

def slotBytes (r : Bytes) : Bytes := if r = [] then ZEROS else r

def pathField (p : List Nat) (isLeaf : Bool) : Bytes :=
  toBytes 32 (hexPrefix p isLeaf).length ++ ljust (hexPrefix p isLeaf) 64

def dataField (v : Bytes) : Bytes := toBytes 32 v.length ++ ljust v 96

def layout : Form → Bytes
  | .leaf p v => toBytes 32 1 ++ (pathField p true ++ dataField v)
  | .ext p r => toBytes 32 2 ++ (pathField p false ++ r)
  | .branch rs v => toBytes 32 3 ++ ((rs.map slotBytes).flatten ++ dataField v)

/-- A path whose encoding the format has room for. -/
def PathFits (p : List Nat) (isLeaf : Bool) : Prop :=
  (∀ d ∈ p, d < 16) ∧ (hexPrefix p isLeaf).length ≤ 64

/-- What the format can say. Data that are too long for their chunks go on
    behind them. -/
def Codable : Form → Prop
  | .leaf p v => PathFits p true ∧ v.length < 2 ^ 256
  | .ext p r => PathFits p false ∧ r.length = 32
  | .branch rs v =>
    rs.length = 16 ∧ (∀ r ∈ rs, r = [] ∨ zkLimits.RefOk r) ∧ v.length < 2 ^ 256

theorem path_fits {p : List Nat} (valid : zkLimits.PathOk p) (isLeaf : Bool) :
    PathFits p isLeaf := by
  have short := valid.2
  refine ⟨valid.1, ?_⟩
  rw [hexPrefix_length]
  omega

theorem storable_codable {form : Form} (valid : Storable zkLimits form) : Codable form := by
  cases form with
  | leaf p v =>
    have short : v.length ≤ 96 := valid.2
    exact ⟨path_fits valid.1 true, by omega⟩
  | ext p r => exact ⟨path_fits valid.1 false, valid.2.1⟩
  | branch rs v =>
    obtain ⟨count, slots, _, value⟩ := valid
    have short : v.length ≤ 96 := by
      rcases value with rfl | fits
      · simp
      · exact fits
    exact ⟨count, slots, by omega⟩

theorem pathField_length {p : List Nat} {isLeaf : Bool} (fits : PathFits p isLeaf) :
    (pathField p isLeaf).length = 96 := by
  rw [pathField, List.length_append, toBytes_length, ljust_length fits.2]

theorem slot_sized {rs : List Bytes} (slots : ∀ r ∈ rs, r = [] ∨ zkLimits.RefOk r) :
    ∀ c ∈ rs.map slotBytes, c.length = 32 := by
  intro c member
  obtain ⟨r, inside, rfl⟩ := List.mem_map.mp member
  rcases slots r inside with rfl | valid
  · rfl
  · rw [slotBytes]
    split
    · rfl
    · exact valid.1

theorem slots_length {rs : List Bytes} (count : rs.length = 16)
    (slots : ∀ r ∈ rs, r = [] ∨ zkLimits.RefOk r) : (rs.map slotBytes).flatten.length = 512 := by
  have sizes : (rs.map slotBytes).map List.length = List.replicate 16 32 := by
    rw [List.eq_replicate_iff, List.length_map, List.length_map, count]
    refine ⟨rfl, fun n member => ?_⟩
    obtain ⟨c, inside, rfl⟩ := List.mem_map.mp member
    exact slot_sized slots c inside
  rw [List.length_flatten, sizes]
  rfl

theorem node_zkEncode {node : Node} {form : Form} (shows : Shows node form) :
    zkEncode node = .ok (layout form) := by
  cases node <;> cases form <;> simp only [Shows] at shows
  case leaf.leaf path data p v =>
    obtain ⟨width, rfl, rfl⟩ := shows
    simp [zkEncode, NibblePath.encode_hex width, safeData, layout, pathField, dataField, bind,
      Except.bind]
  case extension.ext path nextRef p r =>
    obtain ⟨width, rfl, rfl⟩ := shows
    simp [zkEncode, NibblePath.encode_hex width, referenceBytes, layout, pathField, bind,
      Except.bind]
  case branch.branch branches data rs v =>
    obtain ⟨rfl, rfl⟩ := shows
    have slots := mapM_ok (f := PyObj.bytes) (g := branchBytes) (h := slotBytes) rs fun r _ => by
      by_cases none : r = [] <;> simp [branchBytes, slotBytes, PyObj.truthy, referenceBytes, none]
    simp [zkEncode, slots, safeData, layout, dataField, bind, Except.bind]

/-- A length and the data behind it, after a type and another field. -/
theorem read_data {head front : Bytes} {size : Nat} (headSize : head.length = 32)
    (frontSize : front.length = size) {v : Bytes} (counted : v.length < 2 ^ 256) :
    ofBytes (slice (head ++ (front ++ dataField v)) (32 + size) (64 + size)) = v.length ∧
      slice (head ++ (front ++ dataField v)) (64 + size) (64 + size + v.length) = v := by
  have small : v.length < 256 ^ 32 := by omega
  have length := slice_field (ljust v 96) (toBytes_length 32 v.length)
  have data := slice_data v [] 96
  rw [List.append_nil] at data
  constructor
  · rw [slice_behind headSize (by omega), slice_behind frontSize (by omega), dataField,
      show 32 + size - 32 - size = 0 by omega, show 64 + size - 32 - size = 32 by omega, length,
      ofBytes_toBytes_of_lt small]
  · rw [slice_behind headSize (by omega), slice_behind frontSize (by omega), dataField,
      slice_behind (toBytes_length _ _) (by omega), show 64 + size - 32 - size - 32 = 0 by omega,
      show 64 + size + v.length - 32 - size - 32 = v.length by omega, data]

theorem type_field (n : Nat) (rest : Bytes) : slice (toBytes 32 n ++ rest) 0 32 = toBytes 32 n :=
  slice_field _ (toBytes_length _ _)

theorem read_path {p : List Nat} {isLeaf : Bool} (fits : PathFits p isLeaf) (n : Nat)
    (rest : Bytes) : ∃ path, decodePathBytes (toBytes 32 n ++ (pathField p isLeaf ++ rest)) = .ok path ∧
      path.width = 16 ∧ path.remaining = p := by
  obtain ⟨path, decoded, width, digits⟩ := decode_hexPrefix p isLeaf fits.1
  have small : (hexPrefix p isLeaf).length < 256 ^ 32 :=
    Nat.lt_of_le_of_lt fits.2 (by decide)
  have length : ofBytes (slice (toBytes 32 n ++ (pathField p isLeaf ++ rest)) 32 64) =
      (hexPrefix p isLeaf).length := by
    rw [slice_behind (toBytes_length _ _) (Nat.le_refl _), pathField, List.append_assoc, type_field,
      ofBytes_toBytes_of_lt small]
  have bytes : slice (toBytes 32 n ++ (pathField p isLeaf ++ rest)) 64
      (64 + (hexPrefix p isLeaf).length) = hexPrefix p isLeaf := by
    rw [slice_behind (toBytes_length _ _) (by omega), pathField, List.append_assoc,
      slice_behind (toBytes_length _ _) (by omega), Nat.sub_self,
      show 64 + (hexPrefix p isLeaf).length - 32 - 32 = (hexPrefix p isLeaf).length by omega,
      slice_data]
  refine ⟨path, ?_, width, digits⟩
  simp only [decodePathBytes, length, bytes, decoded, bind, Except.bind]

theorem read_branch {rs : List Bytes} (count : rs.length = 16)
    (slots : ∀ r ∈ rs, r = [] ∨ zkLimits.RefOk r) (rest : Bytes) :
    (List.range 16).map (decodeBranch (toBytes 32 3 ++ ((rs.map slotBytes).flatten ++ rest))) =
      rs.map PyObj.bytes := by
  apply List.ext_getElem (by simp [count])
  intro i inside inside'
  have within : i < rs.length := by simpa using inside'
  have chunk := slice_chunk (slot_sized slots) rest (i := i) (by simpa using within)
  rw [List.getElem_map] at chunk
  simp only [List.getElem_map, List.getElem_range, decodeBranch]
  rw [slice_behind (toBytes_length _ _) (by omega), show 32 + i * 32 - 32 = i * 32 by omega,
    show 64 + i * 32 - 32 = i * 32 + 32 by omega, chunk]
  rcases slots rs[i] (List.getElem_mem within) with none | valid
  · rw [none]
    simp [slotBytes]
  · have some : rs[i] ≠ [] := by
      intro none
      have size := valid.1
      rw [none] at size
      simp at size
    rw [slotBytes, if_neg some, if_pos valid.2]

theorem node_zkDecode {form : Form} (codable : Codable form) :
    ∃ node, zkDecode (layout form) = .ok node ∧ Shows node form := by
  have type (n : Nat) (small : n < 256 ^ 32) (rest : Bytes) :
      ofBytes (slice (toBytes 32 n ++ rest) 0 32) = n := by
    rw [type_field, ofBytes_toBytes_of_lt small]
  cases form with
  | leaf p v =>
    obtain ⟨path, decoded, width, digits⟩ := read_path codable.1 1 (dataField v)
    obtain ⟨length, data⟩ :=
      read_data (toBytes_length 32 1) (pathField_length codable.1) codable.2
    refine ⟨.leaf path (.bytes v), ?_, width, digits, rfl⟩
    simp only [Nat.reduceAdd] at length data
    simp only [zkDecode, layout, type 1 (by decide), ↓reduceIte, decoded, bind, Except.bind, length,
      data]
  | ext p r =>
    obtain ⟨path, decoded, width, digits⟩ := read_path codable.1 2 r
    refine ⟨.extension path (.bytes r), ?_, width, digits, rfl⟩
    have whole := slice_field [] codable.2
    rw [List.append_nil] at whole
    simp only [zkDecode, layout, type 2 (by decide), Nat.reduceEqDiff, ↓reduceIte, decoded, bind,
      Except.bind]
    rw [slice_behind (toBytes_length _ _) (by omega),
      slice_behind (pathField_length codable.1) (by omega), whole]
  | branch rs v =>
    obtain ⟨count, slots, counted⟩ := codable
    obtain ⟨length, data⟩ := read_data (toBytes_length 32 3) (slots_length count slots) counted
    refine ⟨.branch (rs.map PyObj.bytes) (.bytes v), ?_, rfl, rfl⟩
    simp only [Nat.reduceAdd] at length data
    simp only [zkDecode, layout, type 3 (by decide), Nat.reduceEqDiff, ↓reduceIte,
      read_branch count slots, length, data]

/- The format on nodes. -/

def ZkNode : Node → Prop
  | .leaf path data => path.width = 16 ∧ (hexPrefix path.remaining true).length ≤ 64 ∧
      ∃ v, data = .bytes v ∧ v.length < 2 ^ 256
  | .extension path nextRef => path.width = 16 ∧ (hexPrefix path.remaining false).length ≤ 64 ∧
      ∃ r, nextRef = .bytes r ∧ r.length = 32
  | .branch branches data => branches.length = 16 ∧
      (∀ o ∈ branches, ∃ r, o = .bytes r ∧ (r = [] ∨ (r.length = 32 ∧ r ≠ ZEROS))) ∧
      ∃ v, data = .bytes v ∧ v.length < 2 ^ 256

theorem zkNode_form {node : Node} (fits : ZkNode node) :
    ∃ form, Shows node form ∧ Codable form := by
  cases node with
  | leaf path data =>
    obtain ⟨width, few, v, rfl, counted⟩ := fits
    exact ⟨.leaf path.remaining v, ⟨width, rfl, rfl⟩, ⟨width ▸ path.remaining_valid, few⟩, counted⟩
  | extension path nextRef =>
    obtain ⟨width, few, r, rfl, whole⟩ := fits
    exact ⟨.ext path.remaining r, ⟨width, rfl, rfl⟩, ⟨width ▸ path.remaining_valid, few⟩, whole⟩
  | branch branches data =>
    obtain ⟨count, entries, v, rfl, counted⟩ := fits
    obtain ⟨rs, rfl, slots⟩ := bytes_entries entries
    rw [List.length_map] at count
    exact ⟨.branch rs v, ⟨rfl, rfl⟩, count, slots, counted⟩

/-- Nodes are read back as they were written and written again as the same
    bytes, and no two nodes are written as the same bytes. -/
theorem zk_lossless :
    (∀ node, ZkNode node → ∃ data again, zkEncode node = .ok data ∧ zkDecode data = .ok again ∧
      Alike node again ∧ zkEncode again = .ok data) ∧
    ∀ node other, ZkNode node → ZkNode other → zkEncode node = zkEncode other →
      Alike node other := by
  constructor
  · intro node fits
    obtain ⟨form, shows, codable⟩ := zkNode_form fits
    obtain ⟨again, decoded, shows'⟩ := node_zkDecode codable
    exact ⟨layout form, again, node_zkEncode shows, decoded, shows_alike shows shows',
      node_zkEncode shows'⟩
  · intro node other fits fits' same
    obtain ⟨form, shows, codable⟩ := zkNode_form fits
    obtain ⟨form', shows', codable'⟩ := zkNode_form fits'
    obtain ⟨again, decoded, read⟩ := node_zkDecode codable
    obtain ⟨again', decoded', read'⟩ := node_zkDecode codable'
    rw [node_zkEncode shows, node_zkEncode shows', Except.ok.injEq] at same
    rw [same, decoded'] at decoded
    cases decoded
    rw [shows_unique read read'] at shows
    exact shows_alike shows shows'

theorem zk_lossless_sample : ∃ data again,
    zkEncode (.extension ⟨16, [1, 2, 3], 1, by decide⟩ (.bytes (toBytes 32 7))) = .ok data ∧
    zkDecode data = .ok again ∧
    Alike (.extension ⟨16, [1, 2, 3], 1, by decide⟩ (.bytes (toBytes 32 7))) again ∧
    zkEncode again = .ok data :=
  zk_lossless.1 _ ⟨rfl, by decide, _, rfl, toBytes_length _ _⟩

end ZkEncoding
