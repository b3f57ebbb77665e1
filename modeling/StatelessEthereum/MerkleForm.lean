import StatelessEthereum.MerkleTree

/- What a node says, apart from how its fields are held, and what a node format
   must do for the trie to work: whatever it stores it can load again. -/
namespace MerkleForms
open PythonError BigEndian RlpFormat NibblePaths MerkleNodes MerkleTrees

inductive Form where
  | leaf : List Nat → Bytes → Form
  | ext : List Nat → Bytes → Form
  | branch : List Bytes → Bytes → Form

def Shows : Node → Form → Prop
  | .leaf path data, .leaf p v => path.width = 16 ∧ path.remaining = p ∧ data = .bytes v
  | .extension path nextRef, .ext p r =>
    path.width = 16 ∧ path.remaining = p ∧ nextRef = .bytes r
  | .branch branches data, .branch rs v => branches = rs.map PyObj.bytes ∧ data = .bytes v
  | _, _ => False

/-- The paths, values and references a format is meant for. -/
structure Limits where
  PathOk : List Nat → Prop
  ValueOk : Bytes → Prop
  RefOk : Bytes → Prop
  digits : ∀ p, PathOk p → ∀ d ∈ p, d < 16
  infixes : ∀ p q, p <:+: q → PathOk q → PathOk p

def Storable (limits : Limits) : Form → Prop
  | .leaf p v => limits.PathOk p ∧ limits.ValueOk v
  | .ext p r => limits.PathOk p ∧ limits.RefOk r
  | .branch rs v =>
    rs.length = 16 ∧ (∀ r ∈ rs, r = [] ∨ limits.RefOk r) ∧ (∃ r ∈ rs, limits.RefOk r) ∧
      (v = [] ∨ limits.ValueOk v)

structure Codec (scheme : Scheme) (limits : Limits) where
  layout : Form → Bytes
  hash_size : ∀ b, (scheme.hash b).length = 32
  addressed : ∀ node reference encoded, scheme.reference node = .ok reference →
    scheme.encode node = .ok encoded → reference.length = 32 → reference = scheme.hash encoded
  stores : ∀ node form, Shows node form → Storable limits form →
    scheme.encode node = .ok (layout form) ∧
      scheme.reference node = .ok (scheme.hash (layout form))
  loads : ∀ form, Storable limits form →
    ∃ node, scheme.decode (layout form) = .ok node ∧ Shows node form

theorem shows_unique {node : Node} {f g : Form} (hf : Shows node f) (hg : Shows node g) :
    f = g := by
  cases node <;> cases f <;> cases g <;> simp only [Shows] at hf hg
  · obtain ⟨_, rfl, rfl⟩ := hf
    obtain ⟨_, rfl, same⟩ := hg
    simp only [PyObj.bytes.injEq] at same
    rw [same]
  · obtain ⟨_, rfl, rfl⟩ := hf
    obtain ⟨_, rfl, same⟩ := hg
    simp only [PyObj.bytes.injEq] at same
    rw [same]
  · obtain ⟨rfl, rfl⟩ := hf
    obtain ⟨entries, same⟩ := hg
    simp only [PyObj.bytes.injEq] at same
    have equal := List.map_injective_iff.mpr (fun _ _ h => PyObj.bytes.inj h) entries
    rw [equal, same]

/-- Nodes of one kind with equal paths and equal fields. -/
def Alike : Node → Node → Prop
  | .leaf path data, .leaf path' data' => path.eq path' = true ∧ data = data'
  | .extension path ref, .extension path' ref' => path.eq path' = true ∧ ref = ref'
  | .branch branches data, .branch branches' data' => branches = branches' ∧ data = data'
  | _, _ => False

theorem shows_alike {node other : Node} {form : Form} (shows : Shows node form)
    (same : Shows other form) : Alike node other := by
  cases node <;> cases other <;> cases form <;> simp only [Shows] at shows same
  · obtain ⟨_, remaining, rfl⟩ := shows
    obtain ⟨_, remaining', rfl⟩ := same
    exact ⟨(NibblePath.eq_iff _ _).mpr (remaining.trans remaining'.symm), rfl⟩
  · obtain ⟨_, remaining, rfl⟩ := shows
    obtain ⟨_, remaining', rfl⟩ := same
    exact ⟨(NibblePath.eq_iff _ _).mpr (remaining.trans remaining'.symm), rfl⟩
  · obtain ⟨rfl, rfl⟩ := shows
    obtain ⟨rfl, rfl⟩ := same
    exact ⟨rfl, rfl⟩

theorem bytes_entries {P : Bytes → Prop} {os : List PyObj}
    (each : ∀ o ∈ os, ∃ r, o = .bytes r ∧ P r) :
    ∃ rs : List Bytes, os = rs.map PyObj.bytes ∧ ∀ r ∈ rs, P r := by
  induction os with
  | nil => exact ⟨[], rfl, by simp⟩
  | cons o os ih =>
    obtain ⟨r, rfl, holds⟩ := each o (by simp)
    obtain ⟨rs, rfl, rest⟩ := ih fun o member => each o (by simp [member])
    exact ⟨r :: rs, rfl, by simpa using ⟨holds, rest⟩⟩

/- The keccak format. -/

def keccakLimits : Limits where
  PathOk p := (∀ d ∈ p, d < 16) ∧ p.length ≤ 2 * MAX_BYTES
  ValueOk v := 32 ≤ v.length ∧ v.length ≤ MAX_BYTES
  RefOk r := r.length = 32
  digits _ valid := valid.1
  infixes _ _ part valid :=
    ⟨fun d member => valid.1 d (part.subset member), part.length_le.trans valid.2⟩

def nodeItem : Form → Item
  | .leaf p v => .list [.str (hexPrefix p true), .str v]
  | .ext p r => .list [.str (hexPrefix p false), .str r]
  | .branch rs v => .list (rs.map Item.str ++ [.str v])

theorem encode_str_length_le {b : Bytes} {bound : Nat} (short : b.length ≤ bound)
    (small : bound < 256 ^ 8) : (Item.str b).encode.length ≤ bound + 9 := by
  have size := encode_length_le (x := .str b) (Nat.lt_of_le_of_lt short small)
  simp only [Item.payload] at size
  omega

theorem encodeAll_length_le {xs : List Item} {bound : Nat}
    (each : ∀ x ∈ xs, x.encode.length ≤ bound) : (encodeAll xs).length ≤ xs.length * bound := by
  induction xs with
  | nil => simp [encodeAll]
  | cons x xs ih =>
    have here := each x (by simp)
    have rest := ih fun y member => each y (by simp [member])
    simp only [encodeAll, List.length_append, List.length_cons, Nat.add_mul]
    omega

theorem pair_fits {a b : Bytes} (ha : a.length ≤ MAX_BYTES + 1) (hb : b.length ≤ MAX_BYTES) :
    (Item.list [.str a, .str b]).Fits := by
  have first := encode_str_length_le ha (by decide)
  have second := encode_str_length_le hb (by decide)
  simp only [Item.Fits, Item.payload, encodeAll, List.length_append, List.append_nil]
  simp only [MAX_BYTES] at first second
  omega

theorem hexPrefix_fits {p : List Nat} (valid : keccakLimits.PathOk p) (isLeaf : Bool) :
    (hexPrefix p isLeaf).length ≤ MAX_BYTES + 1 := by
  rw [hexPrefix_length]
  have size := valid.2
  omega

theorem nodeItem_fits {form : Form} (valid : Storable keccakLimits form) :
    (nodeItem form).Fits := by
  cases form with
  | leaf p v => exact pair_fits (hexPrefix_fits valid.1 true) valid.2.2
  | ext p r =>
    have size : r.length = 32 := valid.2
    exact pair_fits (hexPrefix_fits valid.1 false) (by rw [size]; decide)
  | branch rs v =>
    obtain ⟨count, slots, _, value⟩ := valid
    have each : ∀ x ∈ rs.map Item.str, x.encode.length ≤ 32 + 9 := by
      intro x member
      obtain ⟨r, inside, rfl⟩ := List.mem_map.mp member
      have size : r.length ≤ 32 := by
        rcases slots r inside with rfl | full
        · simp
        · exact Nat.le_of_eq full
      exact encode_str_length_le size (by decide)
    have slotBytes := encodeAll_length_le each
    have valueSize : v.length ≤ MAX_BYTES := by
      rcases value with rfl | good
      · simp
      · exact good.2
    have valueBytes := encode_str_length_le valueSize (by decide)
    simp only [nodeItem, Item.Fits, Item.payload, encodeAll_append, List.length_append, encodeAll,
      List.append_nil]
    simp only [List.length_map, count, MAX_BYTES] at slotBytes valueBytes
    omega

theorem list_encode_long {b : Bytes} {xs : List Item} (member : Item.str b ∈ xs)
    (long : 32 ≤ b.length) : 32 ≤ (Item.list xs).encode.length := by
  have inside := encode_lt_list member
  have payload := payload_le_encode (.str b)
  simp only [Item.payload] at payload
  omega

theorem nodeItem_long {form : Form} (valid : Storable keccakLimits form) :
    32 ≤ (nodeItem form).encode.length := by
  cases form with
  | leaf p v => exact list_encode_long (b := v) (by simp) valid.2.1
  | ext p r => exact list_encode_long (b := r) (by simp) (Nat.le_of_eq (Eq.symm valid.2))
  | branch rs v =>
    obtain ⟨_, _, ⟨r, member, full⟩, _⟩ := valid
    exact list_encode_long (b := r) (by simp [member]) (Nat.le_of_eq (Eq.symm full))

theorem mapM_ok {α β γ : Type} {g : β → Except PyError γ} {f : α → β} {h : α → γ} (xs : List α)
    (each : ∀ x ∈ xs, g (f x) = .ok (h x)) : (xs.map f).mapM g = .ok (xs.map h) := by
  induction xs with
  | nil => rfl
  | cons x xs ih =>
    have rest := ih fun y member => each y (by simp [member])
    rw [List.map_cons, List.mapM_cons, each x (by simp), rest]
    rfl

/-- An absent reference and a whole digest are encoded as they are. -/
theorem prepare_reference {r : Bytes} (shape : r = [] ∨ r.length = 32) :
    prepareReferenceForEncoding (.bytes r) = .ok (.bytes r) := by
  have size : ¬ (0 < r.length ∧ r.length < 32) := by
    rcases shape with rfl | full
    · simp
    · omega
  simp only [prepareReferenceForEncoding, PyObj.len, bind, Except.bind, size, ↓reduceIte]

theorem rlpEncodeList_bytes (bs : List Bytes) :
    rlpEncodeList (bs.map PyObj.bytes) = rlpEncode (.list (bs.map Item.str)) := by
  simp only [rlpEncodeList, mapM_ok (h := Item.str) bs fun b _ => (rfl : PyObj.toItem (.bytes b) = _)]
  rfl

theorem node_encode {node : Node} {form : Form} (shows : Shows node form)
    (valid : Storable keccakLimits form) : node.encode = .ok (nodeItem form).encode := by
  have fits := nodeItem_fits valid
  cases node <;> cases form <;> simp only [Shows] at shows
  case leaf.leaf path data p v =>
    obtain ⟨width, rfl, rfl⟩ := shows
    simp only [Node.encode, NibblePath.encode_hex width, bind, Except.bind]
    have body := rlpEncodeList_bytes [hexPrefix path.remaining true, v]
    simp only [List.map_cons, List.map_nil] at body
    rw [body, rlpEncode]
    exact if_pos fits
  case extension.ext path nextRef p r =>
    obtain ⟨width, rfl, rfl⟩ := shows
    have body := rlpEncodeList_bytes [hexPrefix path.remaining false, r]
    simp only [List.map_cons, List.map_nil] at body
    simp only [Node.encode, prepare_reference (Or.inr valid.2), NibblePath.encode_hex width, bind,
      Except.bind]
    rw [body, rlpEncode]
    exact if_pos fits
  case branch.branch branches data rs v =>
    obtain ⟨rfl, rfl⟩ := shows
    have slots := mapM_ok (h := PyObj.bytes) rs fun r member => prepare_reference (valid.2.1 r member)
    have body := rlpEncodeList_bytes (rs ++ [v])
    simp only [List.map_append, List.map_cons, List.map_nil] at body
    simp only [Node.encode, slots, bind, Except.bind]
    rw [body, rlpEncode]
    exact if_pos fits

theorem rlpDecode_encode {x : Item} (fits : x.Fits) : rlpDecode x.encode = .ok x := by
  simp [rlpDecode, decode_encode x fits]

theorem decodeList_branch (rs : List Bytes) (v : Bytes) (count : rs.length = 16) :
    Node.decodeList (rs.map Item.str ++ [.str v]) =
      .ok (.branch (rs.map PyObj.bytes) (.bytes v)) := by
  have long : ¬ (rs.map Item.str ++ [Item.str v]).length < 3 := by simp [count]
  have slots := mapM_ok (f := Item.str) (g := fun x => prepareReferenceForUsage (.ofItem x))
    (h := PyObj.bytes) rs fun _ _ => rfl
  unfold Node.decodeList
  split
  · rename_i pair
    have size := congrArg List.length pair
    simp [count] at size
  · rw [if_neg long, List.dropLast_concat, slots]
    simp [bind, Except.bind, PyObj.ofItem]

theorem node_decode {form : Form} (valid : Storable keccakLimits form) :
    ∃ node, Node.decode (nodeItem form).encode = .ok node ∧ Shows node form := by
  simp only [Node.decode, rlpDecode_encode (nodeItem_fits valid), bind, Except.bind]
  cases form with
  | leaf p v =>
    obtain ⟨path, decoded, width, rest⟩ := decode_hexPrefix p true valid.1.1
    refine ⟨.leaf path (.bytes v), ?_, width, rest, rfl⟩
    simp [nodeItem, Node.decodeList, Node.decodePath, decoded, bind, Except.bind, PyObj.ofItem]
  | ext p r =>
    obtain ⟨path, decoded, width, rest⟩ := decode_hexPrefix p false valid.1.1
    refine ⟨.extension path (.bytes r), ?_, width, rest, rfl⟩
    simp [nodeItem, Node.decodeList, Node.decodePath, decoded, bind, Except.bind, PyObj.ofItem,
      prepareReferenceForUsage]
  | branch rs v =>
    exact ⟨_, decodeList_branch rs v valid.1, rfl, rfl⟩

structure Keccak where
  hash : Bytes → Bytes
  size : ∀ b, (hash b).length = 32

def keccakCodec (keccak : Keccak) : Codec (keccakScheme keccak.hash) keccakLimits where
  layout form := (nodeItem form).encode
  hash_size := keccak.size
  addressed node reference encoded referred written whole := by
    change node.encode = .ok encoded at written
    simp only [keccakScheme, intoReference, written, bind, Except.bind, Except.ok.injEq] at referred
    split at referred
    · rename_i short
      rw [referred] at short
      omega
    · exact referred.symm
  stores node form shows valid := by
    have encoded := node_encode shows valid
    have long : ¬ (nodeItem form).encode.length < 32 := Nat.not_lt.mpr (nodeItem_long valid)
    refine ⟨encoded, ?_⟩
    simp only [keccakScheme, intoReference, encoded, bind, Except.bind, long, ↓reduceIte]
  loads _ valid := node_decode valid

end MerkleForms
