import StatelessEthereum.MerkleForm

/- The RLP form of a node with references of every kind: absent, a whole digest,
   or the encoding of a short list, which stands in the node as that list. -/
namespace MerkleEncoding
open PythonError BigEndian RlpFormat NibblePaths MerkleNodes MerkleForms

/-- What a reference field holds on its own, apart from what it leads to. -/
def LinkShape : Item → Prop
  | .str b => b = [] ∨ b.length = 32
  | .list xs => (Item.list xs).encode.length < 32

/-- A reference as the trie handles it: bytes, for a short node its encoding. -/
def linkBytes : Item → Bytes
  | .str b => b
  | .list xs => (Item.list xs).encode

theorem str_fits {b : Bytes} (shape : b = [] ∨ b.length = 32) : (Item.str b).Fits := by
  have small : b.length < 256 ^ 8 := by
    rcases shape with rfl | whole
    · decide
    · rw [whole]
      decide
  exact small

theorem shape_fits {x : Item} (shape : LinkShape x) : x.Fits := by
  cases x with
  | str b => exact str_fits shape
  | list xs =>
    have short : (Item.list xs).encode.length < 32 := shape
    have inside := payload_le_encode (.list xs)
    exact Nat.lt_of_le_of_lt inside (Nat.lt_trans short (by decide))

theorem shape_length {x : Item} (shape : LinkShape x) : x.encode.length ≤ 32 + 9 := by
  cases x with
  | str b =>
    have size : b.length ≤ 32 := by
      rcases shape with rfl | whole
      · simp
      · exact Nat.le_of_eq whole
    exact encode_str_length_le size (by decide)
  | list xs =>
    have short : (Item.list xs).encode.length < 32 := shape
    omega

theorem prepare_link {x : Item} (shape : LinkShape x) :
    prepareReferenceForEncoding (.bytes (linkBytes x)) = .ok (.ofItem x) := by
  cases x with
  | str b => exact prepare_reference shape
  | list xs =>
    have positive : 0 < (Item.list xs).encode.length := encode_length_pos _
    have read : rlpDecode (Item.list xs).encode = .ok (.list xs) :=
      rlpDecode_encode (shape_fits shape)
    have short : (Item.list xs).encode.length < 32 := shape
    simp only [linkBytes, prepareReferenceForEncoding, PyObj.len, bind, Except.bind, positive,
      short, read, and_self, ↓reduceIte]

theorem usage_link {x : Item} (fits : x.Fits) :
    prepareReferenceForUsage (.ofItem x) = .ok (.bytes (linkBytes x)) := by
  cases x with
  | str b => rfl
  | list xs =>
    have whole : rlpEncode (.list xs) = .ok (Item.list xs).encode := if_pos fits
    simp only [PyObj.ofItem, prepareReferenceForUsage, whole, bind, Except.bind, linkBytes]

theorem rlpEncodeList_items (xs : List Item) :
    rlpEncodeList (xs.map PyObj.ofItem) = rlpEncode (.list xs) := by
  have back : ∀ x ∈ xs, PyObj.toItem (.ofItem x) = .ok (id x) := by
    intro x _
    cases x <;> rfl
  simp only [rlpEncodeList, mapM_ok xs back, List.map_id]
  rfl

inductive Writes : Node → Item → Prop where
  | leaf (path : NibblePath) {b : Bytes} (hex : path.width = 16) :
      Writes (.leaf path (.bytes b)) (.list [.str (hexPrefix path.remaining true), .str b])
  | extension (path : NibblePath) {x : Item} (hex : path.width = 16) (shape : LinkShape x) :
      Writes (.extension path (.bytes (linkBytes x)))
        (.list [.str (hexPrefix path.remaining false), x])
  | branch {xs : List Item} {b : Bytes} (count : xs.length = 16)
      (shapes : ∀ x ∈ xs, LinkShape x) :
      Writes (.branch (xs.map fun x => .bytes (linkBytes x)) (.bytes b)) (.list (xs ++ [.str b]))

theorem writes_encode {node : Node} {item : Item} (writes : Writes node item) :
    node.encode = rlpEncode item := by
  cases writes with
  | leaf path hex =>
    rename_i b
    have body := rlpEncodeList_items [.str (hexPrefix path.remaining true), .str b]
    simp only [List.map_cons, List.map_nil, PyObj.ofItem] at body
    simp only [Node.encode, NibblePath.encode_hex hex, bind, Except.bind, body]
  | extension path hex shape =>
    rename_i x
    have body := rlpEncodeList_items [.str (hexPrefix path.remaining false), x]
    have front : PyObj.ofItem (.str (hexPrefix path.remaining false)) =
        .bytes (hexPrefix path.remaining false) := rfl
    rw [List.map_cons, List.map_cons, List.map_nil, front] at body
    simp only [Node.encode, NibblePath.encode_hex hex, prepare_link shape, bind, Except.bind, body]
  | branch count shapes =>
    rename_i xs b
    have refs := mapM_ok xs fun x member => prepare_link (shapes x member)
    have body := rlpEncodeList_items (xs ++ [.str b])
    have joined : (xs ++ [Item.str b]).map PyObj.ofItem = xs.map PyObj.ofItem ++ [.bytes b] :=
      List.map_append
    rw [joined] at body
    simp only [Node.encode, refs, bind, Except.bind, body]

/-- What was written is read back with the same path, data and references. -/
theorem writes_decode {node : Node} {item : Item} (writes : Writes node item) (fits : item.Fits) :
    ∃ again, Node.decode item.encode = .ok again ∧ Writes again item ∧ Alike node again := by
  simp only [Node.decode, rlpDecode_encode fits, bind, Except.bind]
  cases writes with
  | leaf path hex =>
    rename_i b
    obtain ⟨path', decoded, hex', same⟩ :=
      decode_hexPrefix path.remaining true (hex ▸ path.remaining_valid)
    have read := Writes.leaf path' (b := b) hex'
    rw [same] at read
    refine ⟨.leaf path' (.bytes b), ?_, read, (NibblePath.eq_iff _ _).mpr same.symm, rfl⟩
    simp [Node.decodeList, Node.decodePath, decoded, bind, Except.bind, PyObj.ofItem]
  | extension path hex shape =>
    rename_i x
    obtain ⟨path', decoded, hex', same⟩ :=
      decode_hexPrefix path.remaining false (hex ▸ path.remaining_valid)
    have read := Writes.extension path' hex' shape
    rw [same] at read
    refine ⟨.extension path' (.bytes (linkBytes x)), ?_, read,
      (NibblePath.eq_iff _ _).mpr same.symm, rfl⟩
    simp [Node.decodeList, Node.decodePath, decoded, bind, Except.bind,
      usage_link (shape_fits shape)]
  | branch count shapes =>
    rename_i xs b
    refine ⟨.branch (xs.map fun x => .bytes (linkBytes x)) (.bytes b), ?_, .branch count shapes,
      rfl, rfl⟩
    have long : ¬ (xs ++ [Item.str b]).length < 3 := by simp [count]
    have refs := mapM_ok (f := id) (g := fun x => prepareReferenceForUsage (.ofItem x)) xs
      fun x member => usage_link (shape_fits (shapes x member))
    rw [List.map_id] at refs
    dsimp only
    unfold Node.decodeList
    split
    · rename_i pair
      have size := congrArg List.length pair
      simp [count] at size
    · rw [if_neg long, List.dropLast_concat, refs]
      simp [bind, Except.bind, PyObj.ofItem]

/- Nodes of bytes that the interpreter can hold. -/

/-- A reference to a node: its digest, or its encoding if that is short. -/
def Reference (r : Bytes) : Prop :=
  r.length = 32 ∨ ∃ xs, r = (Item.list xs).encode ∧ r.length < 32

def EncodableNode : Node → Prop
  | .leaf path data =>
    path.width = 16 ∧ path.len ≤ 2 * MAX_BYTES ∧ ∃ v : ByteString, data = .bytes v.bytes
  | .extension path nextRef =>
    path.width = 16 ∧ path.len ≤ 2 * MAX_BYTES ∧ ∃ r, nextRef = .bytes r ∧ Reference r
  | .branch branches data => branches.length = 16 ∧
      (∀ o ∈ branches, ∃ r, o = .bytes r ∧ (r = [] ∨ Reference r)) ∧
      ∃ v : ByteString, data = .bytes v.bytes

theorem reference_link {r : Bytes} (reference : Reference r) :
    ∃ x, LinkShape x ∧ linkBytes x = r := by
  rcases reference with whole | ⟨xs, rfl, short⟩
  · exact ⟨.str r, Or.inr whole, rfl⟩
  · exact ⟨.list xs, short, rfl⟩

theorem references_links {branches : List PyObj}
    (slots : ∀ o ∈ branches, ∃ r, o = .bytes r ∧ (r = [] ∨ Reference r)) :
    ∃ xs : List Item, branches = xs.map (fun x => .bytes (linkBytes x)) ∧
      ∀ x ∈ xs, LinkShape x := by
  induction branches with
  | nil => exact ⟨[], rfl, by simp⟩
  | cons o branches ih =>
    obtain ⟨r, rfl, kind⟩ := slots o (by simp)
    have link : ∃ x, LinkShape x ∧ linkBytes x = r := by
      rcases kind with rfl | reference
      · exact ⟨.str [], Or.inl rfl, rfl⟩
      · exact reference_link reference
    obtain ⟨x, shape, rfl⟩ := link
    obtain ⟨xs, rfl, shapes⟩ := ih fun o member => slots o (by simp [member])
    exact ⟨x :: xs, rfl, by simpa using ⟨shape, shapes⟩⟩

theorem path_length {path : NibblePath} (few : path.len ≤ 2 * MAX_BYTES) (isLeaf : Bool) :
    (hexPrefix path.remaining isLeaf).length ≤ MAX_BYTES + 1 := by
  rw [hexPrefix_length, NibblePath.remaining_length]
  omega

theorem encodableNode_writes {node : Node} (encodable : EncodableNode node) :
    ∃ item, Writes node item ∧ item.Fits := by
  cases node with
  | leaf path data =>
    obtain ⟨hex, few, v, rfl⟩ := encodable
    exact ⟨_, .leaf path hex, pair_fits (path_length few true) v.fits⟩
  | extension path nextRef =>
    obtain ⟨hex, few, r, rfl, reference⟩ := encodable
    obtain ⟨x, shape, rfl⟩ := reference_link reference
    refine ⟨_, .extension path hex shape, ?_⟩
    have first := encode_str_length_le (path_length few false) (by decide)
    have second := shape_length shape
    simp only [Item.Fits, Item.payload, encodeAll, List.length_append, List.append_nil]
    simp only [MAX_BYTES] at first
    omega
  | branch branches data =>
    obtain ⟨count, entries, v, rfl⟩ := encodable
    obtain ⟨xs, rfl, shapes⟩ := references_links entries
    rw [List.length_map] at count
    refine ⟨_, .branch count shapes, ?_⟩
    have slots := encodeAll_length_le fun x member => shape_length (shapes x member)
    have value := encode_str_length_le v.fits (by decide)
    simp only [Item.Fits, Item.payload, encodeAll_append, List.length_append, encodeAll,
      List.append_nil]
    simp only [count, MAX_BYTES] at slots value
    omega

/-- Nodes are read back as they were encoded. -/
theorem node_lossless (node : Node) (encodable : EncodableNode node) :
    ∃ encoded again, node.encode = .ok encoded ∧ Node.decode encoded = .ok again ∧
      Alike node again := by
  obtain ⟨item, writes, fits⟩ := encodableNode_writes encodable
  obtain ⟨again, decoded, _, alike⟩ := writes_decode writes fits
  have encoded : node.encode = .ok item.encode := (writes_encode writes).trans (if_pos fits)
  exact ⟨item.encode, again, encoded, decoded, alike⟩

def smallLeaf : Item := .list [.str [0x20], .str [7]]

def smallBranch : Node :=
  .branch (.bytes smallLeaf.encode :: .bytes (toBytes 32 5) :: List.replicate 14 (.bytes []))
    (.bytes [1, 2])

theorem node_lossless_sample : ∃ encoded again, smallBranch.encode = .ok encoded ∧
    Node.decode encoded = .ok again ∧ Alike smallBranch again := by
  refine node_lossless smallBranch ⟨by decide, ?_, ⟨⟨[1, 2], by decide⟩, rfl⟩⟩
  intro o member
  rcases List.mem_cons.mp member with rfl | member
  · exact ⟨_, rfl, Or.inr (Or.inr ⟨_, rfl, by decide⟩)⟩
  · rcases List.mem_cons.mp member with rfl | member
    · exact ⟨_, rfl, Or.inr (Or.inl (toBytes_length 32 5))⟩
    · exact ⟨[], List.eq_of_mem_replicate member, Or.inl rfl⟩

end MerkleEncoding
