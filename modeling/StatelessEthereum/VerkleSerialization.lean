import StatelessEthereum.PythonError

/- How tree nodes are laid out as bytes (verkle/serialization.py). -/
namespace VerkleSerialization
open PythonError BigEndian

/-- `b.field_modulus` -/
def FIELD_MODULUS : Nat :=
  4002409555221667393417789825735904156556882819939007885332058136124031650490837864442687629129015664037894272559787

/-- A 2D point: two `b.FQ` coordinates. -/
structure Point2D where
  x : Fin FIELD_MODULUS
  y : Fin FIELD_MODULUS
  deriving DecidableEq

/-- `b.FQ(n)` -/
def fq (n : Nat) : Fin FIELD_MODULUS := ⟨n % FIELD_MODULUS, Nat.mod_lt _ (by decide)⟩

/-- What the code takes from `zlib`. -/
structure Zlib where
  compress : Bytes → Bytes
  decompress : Bytes → Except PyError Bytes

def Zlib.Lossless (zlib : Zlib) : Prop := ∀ data, zlib.decompress (zlib.compress data) = .ok data

def PREFIX_INTERNAL : UInt8 := 0
def PREFIX_EXTENSION : UInt8 := 1
def PREFIX_SUFFIX : UInt8 := 2

/-- `repr` of one byte, as a message shows it. -/
def byteRepr (b : UInt8) : String :=
  if b = 39 then "b\"'\""
  else if b = 92 then "b'\\\\'"
  else if b = 9 then "b'\\t'"
  else if b = 10 then "b'\\n'"
  else if b = 13 then "b'\\r'"
  else if 32 ≤ b ∧ b < 127 then "b'" ++ String.singleton (Char.ofNat b.toNat) ++ "'"
  else "b'\\x" ++ hex [b] ++ "'"

/-- What `deserialize_any_node` returns. -/
inductive AnyNode (Point : Type) where
  | array (flag : UInt8) (commitment : Point) (childHashes : List (Option Bytes))
  | extension (commitment : Point) (stem childHash : Bytes)

/- Writing. -/

def coordinateLength (n : Nat) : Nat := if byteLength n = 0 then 1 else byteLength n

def writeCoordinate (n : Nat) : Except PyError Bytes := do
  let length ← intToBytes 1 (coordinateLength n)
  .ok (length ++ toBytes (coordinateLength n) n)

def writeCommitment (p : Point2D) : Except PyError Bytes := do
  let x ← writeCoordinate p.x
  let y ← writeCoordinate p.y
  .ok (x ++ y)

def markChild (bitmap : Bytes) (i : Nat) : Bytes :=
  bitmap.modify (i / 8) fun b => b ||| UInt8.ofNat (1 <<< (i % 8))

/-- The loop over the children from index `i` on, with its two accumulators. -/
def collectChildren : Nat → List (Option Bytes) → Bytes → Bytes → Bytes × Bytes
  | _, [], bitmap, childData => (bitmap, childData)
  | i, none :: rest, bitmap, childData => collectChildren (i + 1) rest bitmap childData
  | i, some h :: rest, bitmap, childData =>
    collectChildren (i + 1) rest (markChild bitmap i) (childData ++ h)

def blankBitmap (bf : Nat) : Bytes := List.replicate ((bf + 7) / 8) 0

def serializeArrayNode (zlib : Zlib) (flag : UInt8) (nodeCommitment : Point2D)
    (childHashes : List (Option Bytes)) : Except PyError Bytes := do
  let commitment ← writeCommitment nodeCommitment
  let bf ← intToBytes 2 childHashes.length
  let (bitmap, childData) := collectChildren 0 childHashes (blankBitmap childHashes.length) []
  .ok (zlib.compress (flag :: (commitment ++ (bf ++ (bitmap ++ childData)))))

def serializeExtensionNode (zlib : Zlib) (nodeCommitment : Point2D) (stem : Bytes)
    (childHash : Option Bytes) : Except PyError Bytes := do
  let commitment ← writeCommitment nodeCommitment
  let length ← intToBytes 1 stem.length
  match childHash with
  | none => .error (.typeError "")
  | some h => .ok (zlib.compress (PREFIX_EXTENSION :: (commitment ++ (length ++ (stem ++ h)))))

/- Reading. The data is what lies from the current index on; a slice that
   starts beyond the end is empty. -/

def readByte : Bytes → Except PyError (Nat × Bytes)
  | [] => .error .indexError
  | b :: rest => .ok (b.toNat, rest)

def readCoordinate (data : Bytes) : Except PyError (Nat × Bytes) := do
  let (length, data) ← readByte data
  .ok (ofBytes (data.take length), data.drop length)

def readCommitment (data : Bytes) : Except PyError (Point2D × Bytes) := do
  let (x, data) ← readCoordinate data
  let (y, data) ← readCoordinate data
  .ok (⟨fq x, fq y⟩, data)

/-- The loop that reads the children from index `i` on, so many of them. -/
def readChildren (bitmap : Bytes) : Nat → Nat → Bytes → Except PyError (List (Option Bytes))
  | _, 0, _ => .ok []
  | i, count + 1, data =>
    match bitmap[i / 8]? with
    | none => .error .indexError
    | some b =>
      if b.toNat.testBit (i % 8) then do
        let rest ← readChildren bitmap (i + 1) count (data.drop 32)
        .ok (some (data.take 32) :: rest)
      else do
        let rest ← readChildren bitmap (i + 1) count data
        .ok (none :: rest)

def deserializeArrayNode (data : Bytes) : Except PyError (Point2D × List (Option Bytes)) := do
  let (commitment, data) ← readCommitment data
  let bf := ofBytes (data.take 2)
  let data := data.drop 2
  let bitmapBytes := (bf + 7) / 8
  let childHashes ← readChildren (data.take bitmapBytes) 0 bf (data.drop bitmapBytes)
  .ok (commitment, childHashes)

def deserializeExtensionNode (data : Bytes) : Except PyError (Point2D × Bytes × Bytes) := do
  let (commitment, data) ← readCommitment data
  let (stemLen, data) ← readByte data
  .ok (commitment, data.take stemLen, (data.drop stemLen).take 32)

def deserializeAnyNode (zlib : Zlib) (serialized : Bytes) : Except PyError (AnyNode Point2D) := do
  match ← zlib.decompress serialized with
  | [] => .error (.valueError "Unknown node prefix encountered: b''")
  | flag :: data =>
    if flag = PREFIX_INTERNAL ∨ flag = PREFIX_SUFFIX then do
      let (commitment, childHashes) ← deserializeArrayNode data
      .ok (.array flag commitment childHashes)
    else if flag = PREFIX_EXTENSION then do
      let (commitment, stem, childHash) ← deserializeExtensionNode data
      .ok (.extension commitment stem childHash)
    else .error (.valueError ("Unknown node prefix encountered: " ++ byteRepr flag))

/- Coordinates. -/

theorem coordinate_bound (n : Nat) : n < 256 ^ coordinateLength n := by
  have bound := byteLength_bound n
  unfold coordinateLength
  split
  · rename_i none
    rw [none] at bound
    omega
  · exact bound

theorem coordinateLength_le (c : Fin FIELD_MODULUS) : coordinateLength c ≤ 48 := by
  have short : byteLength c.val ≤ 48 :=
    byteLength_le (Nat.lt_of_lt_of_le c.isLt (by decide))
  unfold coordinateLength
  split <;> omega

theorem fq_val (c : Fin FIELD_MODULUS) : fq c.val = c := by
  simp [fq, Nat.mod_eq_of_lt c.isLt]

theorem writeCoordinate_ok (c : Fin FIELD_MODULUS) : writeCoordinate c.val =
    .ok (toBytes 1 (coordinateLength c.val) ++ toBytes (coordinateLength c.val) c.val) := by
  have short := coordinateLength_le c
  rw [writeCoordinate, intToBytes_ok (by omega)]
  rfl

theorem readCoordinate_written (c : Fin FIELD_MODULUS) (rest : Bytes) :
    readCoordinate (toBytes 1 (coordinateLength c.val) ++
      toBytes (coordinateLength c.val) c.val ++ rest) = .ok (c.val, rest) := by
  have short := coordinateLength_le c
  have len : (UInt8.ofNat (coordinateLength c.val)).toNat = coordinateLength c.val := by
    simp only [UInt8.toNat_ofNat']
    omega
  have value := ofBytes_toBytes_of_lt (coordinate_bound c.val)
  simp [readCoordinate, readByte, toBytes, len, value, bind, Except.bind]

def commitmentBytes (p : Point2D) : Bytes :=
  (toBytes 1 (coordinateLength p.x) ++ toBytes (coordinateLength p.x) p.x) ++
    (toBytes 1 (coordinateLength p.y) ++ toBytes (coordinateLength p.y) p.y)

theorem writeCommitment_ok (p : Point2D) : writeCommitment p = .ok (commitmentBytes p) := by
  rw [writeCommitment, writeCoordinate_ok p.x, writeCoordinate_ok p.y]
  rfl

theorem readCommitment_written (p : Point2D) (rest : Bytes) :
    readCommitment (commitmentBytes p ++ rest) = .ok (p, rest) := by
  have first := readCoordinate_written p.x
    ((toBytes 1 (coordinateLength p.y) ++ toBytes (coordinateLength p.y) p.y) ++ rest)
  have second := readCoordinate_written p.y rest
  simp only [commitmentBytes, List.append_assoc] at first second ⊢
  simp only [readCommitment, first, second, bind, Except.bind, fq_val]

/- The bitmap. -/

def bit (bitmap : Bytes) (i : Nat) : Bool := (bitmap.getD (i / 8) 0).toNat.testBit (i % 8)

theorem markChild_length (bitmap : Bytes) (i : Nat) :
    (markChild bitmap i).length = bitmap.length := by
  simp [markChild]

theorem testBit_mark (b : UInt8) {k : Nat} (small : k < 8) (j : Nat) :
    (b ||| UInt8.ofNat (1 <<< k)).toNat.testBit j = (b.toNat.testBit j || decide (k = j)) := by
  have mask : (UInt8.ofNat (1 <<< k)).toNat = 2 ^ k := by
    have below : 2 ^ k < 2 ^ 8 := Nat.pow_lt_pow_right (by omega) small
    simp only [UInt8.toNat_ofNat', Nat.one_shiftLeft]
    exact Nat.mod_eq_of_lt below
  rw [UInt8.toNat_or, Nat.testBit_or, mask, Nat.testBit_two_pow]

theorem bit_markChild {bitmap : Bytes} {i : Nat} (held : i / 8 < bitmap.length) (j : Nat) :
    bit (markChild bitmap i) j = (bit bitmap j || decide (i = j)) := by
  unfold bit markChild
  simp only [List.getD_eq_getElem?_getD, List.getElem?_modify]
  by_cases byte : i / 8 = j / 8
  · have same : i % 8 = j % 8 ↔ i = j := by omega
    rw [byte] at held
    simp only [byte, ↓reduceIte, List.getElem?_eq_getElem held, Option.map_eq_map,
      Option.map_some, Option.getD_some, testBit_mark _ (Nat.mod_lt i (by decide)), same]
  · have other : i ≠ j := fun equal => byte (by rw [equal])
    simp [byte, other]

def present (children : List (Option Bytes)) : Bytes := (children.filterMap id).flatten

/-- What the loop over the children leaves in its two accumulators. -/
theorem collectChildren_spec (children : List (Option Bytes)) (i : Nat) (bitmap data : Bytes)
    (room : i + children.length ≤ 8 * bitmap.length) :
    (collectChildren i children bitmap data).1.length = bitmap.length ∧
      (collectChildren i children bitmap data).2 = data ++ present children ∧
      ∀ j, bit (collectChildren i children bitmap data).1 j =
        (bit bitmap j || (decide (i ≤ j) && (children[j - i]?.join).isSome)) := by
  induction children generalizing i bitmap data with
  | nil => simp [collectChildren, present]
  | cons child rest ih =>
    simp only [List.length_cons] at room
    have shifted (j : Nat) (later : i < j) :
        (child :: rest)[j - i]?.join = rest[j - (i + 1)]?.join := by
      rw [show j - i = (j - (i + 1)) + 1 by omega, List.getElem?_cons_succ]
    cases child with
    | none =>
      obtain ⟨len, out, bits⟩ := ih (i + 1) bitmap data (by omega)
      refine ⟨len, out, fun j => ?_⟩
      rw [collectChildren, bits j]
      rcases Nat.lt_trichotomy i j with later | here | earlier
      · rw [shifted j later]
        simp [Nat.le_of_lt later, Nat.succ_le_of_lt later]
      · subst here; simp
      · simp [Nat.not_le.mpr earlier, show ¬ i + 1 ≤ j by omega]
    | some h =>
      have held : i / 8 < bitmap.length := by omega
      obtain ⟨len, out, bits⟩ := ih (i + 1) (markChild bitmap i) (data ++ h)
        (by rw [markChild_length]; omega)
      refine ⟨by rw [collectChildren, len, markChild_length], ?_, fun j => ?_⟩
      · rw [collectChildren, out]
        simp [present]
      · rw [collectChildren, bits j, bit_markChild held]
        rcases Nat.lt_trichotomy i j with later | here | earlier
        · rw [shifted j later]
          simp [Nat.le_of_lt later, Nat.ne_of_lt later, Nat.succ_le_of_lt later]
        · subst here; simp
        · simp [Nat.not_le.mpr earlier, show ¬ i + 1 ≤ j by omega, Nat.ne_of_gt earlier]

/-- Children that are read back as they were written: an entry that another one
    follows fills its 32 bytes. -/
def Readable (children : List (Option Bytes)) : Prop :=
  (∀ h, some h ∈ children → h.length ≤ 32) ∧
    children.Pairwise fun a b => ∀ h, a = some h → b ≠ none → h.length = 32

theorem readable_sized {children : List (Option Bytes)}
    (sized : ∀ h, some h ∈ children → h.length = 32) : Readable children := by
  constructor
  · intro h member
    exact Nat.le_of_eq (sized h member)
  · apply List.pairwise_of_forall_mem_list
    intro a inside b _ h same _
    exact sized h (same ▸ inside)

theorem present_none {children : List (Option Bytes)} (none : ∀ b ∈ children, b = none) :
    present children = [] := by
  have nothing : children.filterMap id = [] := List.filterMap_eq_nil_iff.mpr none
  rw [present, nothing]
  rfl

theorem readable_front {h : Bytes} {rest : List (Option Bytes)}
    (readable : Readable (some h :: rest)) :
    (h ++ present rest).take 32 = h ∧ (h ++ present rest).drop 32 = present rest := by
  obtain ⟨short, order⟩ := readable
  have fits := short h List.mem_cons_self
  rcases Nat.eq_or_lt_of_le fits with whole | less
  · exact ⟨List.take_left' whole, List.drop_left' whole⟩
  · have last : ∀ b ∈ rest, b = none := by
      intro b member
      by_contra other
      have whole := (List.pairwise_cons.mp order).1 b member h rfl other
      omega
    rw [present_none last, List.append_nil]
    exact ⟨List.take_of_length_le fits, List.drop_of_length_le fits⟩

theorem readChildren_marked (bitmap : Bytes) (children : List (Option Bytes)) (i : Nat)
    (readable : Readable children)
    (room : i + children.length ≤ 8 * bitmap.length)
    (marks : ∀ j < children.length, bit bitmap (i + j) = (children[j]?.join).isSome) :
    readChildren bitmap i children.length (present children) = .ok children := by
  induction children generalizing i with
  | nil => rfl
  | cons child rest ih =>
    simp only [List.length_cons] at room
    have held : i / 8 < bitmap.length := by omega
    have below : Readable rest := ⟨fun h member => readable.1 h (List.mem_cons_of_mem _ member),
      (List.pairwise_cons.mp readable.2).2⟩
    have later := ih (i + 1) below (by omega)
      fun j short => by
        have mark := marks (j + 1) (by simpa using short)
        rw [show i + (j + 1) = i + 1 + j by omega] at mark
        simpa using mark
    have mark := marks 0 (by simp)
    simp only [bit, Nat.add_zero, List.getD_eq_getElem?_getD, List.getElem?_eq_getElem held,
      Option.getD_some] at mark
    simp only [List.length_cons, readChildren, List.getElem?_eq_getElem held, mark]
    cases child with
    | none =>
      have front : present (none :: rest) = present rest := by simp [present]
      rw [front]
      simp [later, bind, Except.bind]
    | some h =>
      have front : present (some h :: rest) = h ++ present rest := by simp [present]
      obtain ⟨entry, behind⟩ := readable_front readable
      rw [front, behind, entry]
      simp [later, bind, Except.bind]

/- Round trips. -/

theorem bit_blank (bf j : Nat) : bit (blankBitmap bf) j = false := by
  simp only [bit, blankBitmap, List.getD_eq_getElem?_getD, List.getElem?_replicate]
  split <;> simp

theorem deserializeArrayNode_written (p : Point2D) {children : List (Option Bytes)}
    {bitmap data : Bytes} (count : children.length < 256 ^ 2)
    (size : bitmap.length = (children.length + 7) / 8)
    (read : readChildren bitmap 0 children.length data = .ok children) :
    deserializeArrayNode (commitmentBytes p ++ (toBytes 2 children.length ++ (bitmap ++ data))) =
      .ok (p, children) := by
  have width : (toBytes 2 children.length).length = 2 := toBytes_length _ _
  have bf := ofBytes_toBytes_of_lt count
  have front : (toBytes 2 children.length ++ (bitmap ++ data)).take 2 =
      toBytes 2 children.length := List.take_left' width
  have back : (toBytes 2 children.length ++ (bitmap ++ data)).drop 2 = bitmap ++ data :=
    List.drop_left' width
  simp only [deserializeArrayNode, readCommitment_written, bind, Except.bind, front, back, bf]
  rw [List.take_left' size, List.drop_left' size, read]

theorem array_lossless {zlib : Zlib} (lossless : zlib.Lossless) {flag : UInt8}
    (kind : flag = PREFIX_INTERNAL ∨ flag = PREFIX_SUFFIX) (p : Point2D)
    {children : List (Option Bytes)} (count : children.length < 256 ^ 2)
    (readable : Readable children) :
    ∃ encoded, serializeArrayNode zlib flag p children = .ok encoded ∧
      deserializeAnyNode zlib encoded = .ok (.array flag p children) := by
  have blank : (blankBitmap children.length).length = (children.length + 7) / 8 :=
    List.length_replicate
  have room : 0 + children.length ≤ 8 * (blankBitmap children.length).length := by omega
  obtain ⟨size, out, bits⟩ := collectChildren_spec children 0 _ [] room
  rw [List.nil_append] at out
  have read := readChildren_marked _ children 0 readable (by rw [size]; exact room) fun j _ => by
    rw [bits (0 + j), bit_blank]
    simp
  have parsed := deserializeArrayNode_written p count (size.trans blank) read
  refine ⟨_, by
    rw [serializeArrayNode, writeCommitment_ok, intToBytes_ok count]
    rfl, ?_⟩
  rw [deserializeAnyNode, lossless, out]
  simp only [bind, Except.bind, kind, ↓reduceIte, parsed]

theorem deserializeExtensionNode_written (p : Point2D) {stem h : Bytes} (short : stem.length < 256)
    (sized : h.length = 32) :
    deserializeExtensionNode (commitmentBytes p ++ (toBytes 1 stem.length ++ (stem ++ h))) =
      .ok (p, stem, h) := by
  have len : (UInt8.ofNat stem.length).toNat = stem.length := by
    simp only [UInt8.toNat_ofNat']
    omega
  simp only [deserializeExtensionNode, readCommitment_written, bind, Except.bind, toBytes,
    List.nil_append, List.singleton_append, readByte, len, List.take_left, List.drop_left]
  rw [List.take_of_length_le (by omega)]

theorem extension_lossless {zlib : Zlib} (lossless : zlib.Lossless) (p : Point2D) {stem h : Bytes}
    (short : stem.length < 256) (sized : h.length = 32) :
    ∃ encoded, serializeExtensionNode zlib p stem (some h) = .ok encoded ∧
      deserializeAnyNode zlib encoded = .ok (.extension p stem h) := by
  have parsed := deserializeExtensionNode_written p short sized
  have kind : ¬ (PREFIX_EXTENSION = PREFIX_INTERNAL ∨ PREFIX_EXTENSION = PREFIX_SUFFIX) := by
    decide
  refine ⟨_, by
    rw [serializeExtensionNode, writeCommitment_ok, intToBytes_ok (by simpa using short)]
    rfl, ?_⟩
  rw [deserializeAnyNode, lossless]
  simp only [bind, Except.bind, kind, ↓reduceIte, parsed]

/-- Every kind of node is read back as it was written. -/
theorem nodes_lossless {zlib : Zlib} (lossless : zlib.Lossless) (p : Point2D) :
    (∀ flag children, flag = PREFIX_INTERNAL ∨ flag = PREFIX_SUFFIX → children.length ≤ 65535 →
      (∀ h, some h ∈ children → h.length = 32) →
      ∃ encoded, serializeArrayNode zlib flag p children = .ok encoded ∧
        deserializeAnyNode zlib encoded = .ok (.array flag p children)) ∧
    ∀ stem child, stem.length ≤ 255 → child.length = 32 →
      ∃ encoded, serializeExtensionNode zlib p stem (some child) = .ok encoded ∧
        deserializeAnyNode zlib encoded = .ok (.extension p stem child) := by
  constructor
  · intro flag children kind count sized
    exact array_lossless lossless kind p (by omega) (readable_sized sized)
  · intro stem child short sized
    exact extension_lossless lossless p (by omega) sized

/- A compression that is known on a few streams. -/

def tabledZlib (streams : List (Bytes × Bytes)) : Zlib where
  compress data := (streams.lookup data).getD (0 :: data)
  decompress data := match streams.find? fun e => e.2 = data with
    | some e => .ok e.1
    | none => .ok data.tail

theorem tabledZlib_lossless {streams : List (Bytes × Bytes)}
    (checks : ∀ e ∈ streams, (tabledZlib streams).decompress e.2 = .ok e.1 ∧ e.2.head? ≠ some 0) :
    (tabledZlib streams).Lossless := by
  intro data
  cases found : streams.lookup data with
  | some stream =>
    have listed : (data, stream) ∈ streams := by
      obtain ⟨l₁, l₂, split, _⟩ := List.lookup_eq_some_iff.mp found
      simp [split]
    simpa [tabledZlib, found] using (checks _ listed).1
  | none =>
    have fresh : (streams.find? fun e => e.2 = 0 :: data) = none := by
      rw [List.find?_eq_none]
      intro e member same
      have front := (checks e member).2
      rw [decide_eq_true_iff.mp same] at front
      exact front rfl
    simp only [tabledZlib, found, Option.getD_none, fresh, List.tail_cons]

def smallStreams : List (Bytes × Bytes) := [
  ([2, 1, 0, 1, 5, 0, 9, 0, 1] ++ toBytes 32 77,
    toBytes 20 0x785e636264606465b0646064c00f7c01032b0061),
  ([1, 1, 0, 1, 5, 2, 7, 8] ++ toBytes 32 77,
    toBytes 19 0x785e63646460646562e760c00f7c0103d90067)]

def smallZlib : Zlib := tabledZlib smallStreams

theorem smallZlib_lossless : smallZlib.Lossless := tabledZlib_lossless (by decide)

theorem nodes_lossless_sample :
    (∃ encoded, serializeArrayNode smallZlib PREFIX_SUFFIX ⟨fq 0, fq 5⟩
        (List.replicate 8 none ++ [some (toBytes 32 77)]) = .ok encoded ∧
      deserializeAnyNode smallZlib encoded = .ok (.array PREFIX_SUFFIX ⟨fq 0, fq 5⟩
        (List.replicate 8 none ++ [some (toBytes 32 77)]))) ∧
    ∃ encoded, serializeExtensionNode smallZlib ⟨fq 0, fq 5⟩ [7, 8] (some (toBytes 32 77)) =
        .ok encoded ∧
      deserializeAnyNode smallZlib encoded = .ok (.extension ⟨fq 0, fq 5⟩ [7, 8] (toBytes 32 77)) :=
  have kept := nodes_lossless smallZlib_lossless ⟨fq 0, fq 5⟩
  ⟨kept.1 _ _ (Or.inr rfl) (by decide) (by simp [toBytes_length]),
    kept.2 _ _ (by decide) (toBytes_length _ _)⟩

end VerkleSerialization
