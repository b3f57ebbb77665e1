import StatelessEthereum.VerkleTree
import StatelessEthereum.StemTree
import Mathlib.Data.List.OfFn

/- What a database holds of an abstract tree: every node under the reference
   that its commitment hashes to. -/
namespace VerkleStorage
open PythonError BigEndian PutLog VerkleSerialization
open VerkleTrees hiding insert get
open StemTree
variable {Point V : Type}

/-- A byte string of 32 bytes: a key, a value or a reference. -/
structure Word where
  bytes : Bytes
  size : bytes.length = 32
  deriving DecidableEq

class Entry (V : Type) where
  bytes : V → Bytes

instance : Entry Word := ⟨Word.bytes⟩

instance : Entry Bytes := ⟨id⟩

@[simp] theorem entry_word (w : Word) : Entry.bytes w = w.bytes := rfl

@[simp] theorem entry_words : (Entry.bytes : Word → Bytes) = Word.bytes := rfl

@[simp] theorem entry_bytes (b : Bytes) : Entry.bytes b = b := rfl

abbrev Trie (width : Nat) (V : Type := Word) := Tree (Fin width) (Fin width) V

/-- What a scheme must do for its tree to work: it commits to whatever an
    insert can build, and loads whatever it stores. -/
structure Lawful (scheme : Scheme Point) : Prop where
  commits : ∀ values, values.length = scheme.width → ∃ p, scheme.commit values = .ok p
  commitsExtension : ∀ stem child, (∀ c ∈ stem, c < 256) →
    ∃ p, scheme.commitExtension stem child = .ok p
  hash_small : ∀ p, scheme.hashPointToField p < 256 ^ 32
  array_lossless : ∀ flag p children, flag = PREFIX_INTERNAL ∨ flag = PREFIX_SUFFIX →
    children.length = scheme.width → Readable children →
    ∃ encoded, scheme.serializeArrayNode flag p children = .ok encoded ∧
      scheme.deserializeAnyNode encoded = .ok (.array flag p children)
  extension_lossless : ∀ p stem h, stem.length < 256 → h.length = 32 →
    ∃ encoded, scheme.serializeExtensionNode p stem (some h) = .ok encoded ∧
      scheme.deserializeAnyNode encoded = .ok (.extension p stem h)

/- Lists of children. -/
section Children
variable [Entry V]

def childList {width : Nat} (f : Fin width → Option V) : List (Option Bytes) :=
  List.ofFn fun i => (f i).map Entry.bytes

@[simp] theorem childList_length {width : Nat} (f : Fin width → Option V) :
    (childList f).length = width := by
  simp [childList]

theorem childList_get {width : Nat} (f : Fin width → Option V) (i : Fin width) :
    entry (childList f) i = .ok ((f i).map Entry.bytes) := by
  simp [entry, childList]

theorem childList_set {width : Nat} (f : Fin width → Option V) (i : Fin width) (v : V) :
    setEntry (childList f) i (Entry.bytes v) = .ok (childList (Function.update f i (some v))) := by
  simp only [setEntry, childList_length, i.isLt, ↓reduceIte]
  congr 1
  apply List.ext_getElem (by simp)
  intro n short _
  have range : n < width := by simpa using short
  simp only [childList, List.getElem_set, List.getElem_ofFn]
  by_cases here : i.val = n
  · have same : (⟨n, range⟩ : Fin width) = i := Fin.ext here.symm
    simp [here, same]
  · have other : (⟨n, range⟩ : Fin width) ≠ i := fun equal => here (by rw [← equal])
    simp [here, other]

theorem childList_bare (width : Nat) :
    childList (fun _ : Fin width => (none : Option V)) = List.replicate width none := by
  simp [childList, List.ofFn_const]

/-- Where an entry that another one follows fills its 32 bytes. -/
theorem childList_readable {width : Nat} {f : Fin width → Option V}
    (short : ∀ i v, f i = some v → (Entry.bytes v).length ≤ 32)
    (order : ∀ i j v w, i < j → f i = some v → f j = some w → (Entry.bytes v).length = 32) :
    Readable (childList f) := by
  constructor
  · intro h member
    obtain ⟨i, value⟩ := (List.mem_ofFn' _ _).mp member
    obtain ⟨v, held, rfl⟩ := Option.map_eq_some_iff.mp value
    exact short i v held
  · apply List.pairwise_ofFn.mpr
    intro i j before h same other
    obtain ⟨v, held, rfl⟩ := Option.map_eq_some_iff.mp same
    obtain ⟨w, later⟩ : ∃ w, f j = some w := by
      rw [← Option.ne_none_iff_exists']
      intro none
      exact other (by rw [none, Option.map_none])
    exact order i j v w before held later

theorem childList_words {width : Nat} (f : Fin width → Option Word) : Readable (childList f) := by
  apply readable_sized
  intro h member
  obtain ⟨i, value⟩ := (List.mem_ofFn' _ _).mp member
  obtain ⟨w, _, rfl⟩ := Option.map_eq_some_iff.mp value
  exact w.size

end Children

/- Commitments and references. -/
section References
variable [Entry V] (scheme : Scheme Point)

def arrayPoint (f : Fin scheme.width → Option V) : Option Point :=
  (scheme.commit (childValues (childList f))).toOption

def extensionPoint (stem : List (Fin scheme.width)) (child : Option Word) : Option Point :=
  (scheme.commitExtension (stem.map Fin.val) (child.map Word.bytes)).toOption

def pointRef (p : Point) : Word := ⟨toBytes 32 (scheme.hashPointToField p), toBytes_length _ _⟩

def suffixRef (slots : Fin scheme.width → Option V) : Option Word :=
  (arrayPoint scheme slots).map (pointRef scheme)

def nodePoint : Trie scheme.width V → Option Point
  | .empty => none
  | .group stem slots => extensionPoint scheme stem (suffixRef scheme slots)
  | .inner kids => arrayPoint scheme fun i => (nodePoint (kids i)).map (pointRef scheme)

def refOf (t : Trie scheme.width V) : Option Word := (nodePoint scheme t).map (pointRef scheme)

def refs (kids : Fin scheme.width → Trie scheme.width V) : Fin scheme.width → Option Word :=
  fun i => refOf scheme (kids i)

@[simp] theorem nodePoint_inner (kids : Fin scheme.width → Trie scheme.width V) :
    nodePoint scheme (.inner kids) = arrayPoint scheme (refs scheme kids) := rfl

theorem refs_update (kids : Fin scheme.width → Trie scheme.width V) (i : Fin scheme.width)
    (t : Trie scheme.width V) :
    refs scheme (Function.update kids i t) =
      Function.update (refs scheme kids) i (refOf scheme t) := by
  funext j
  by_cases here : j = i
  · subst here; simp [refs]
  · simp [refs, here]

theorem refs_bare : refs scheme (bare : Fin scheme.width → Trie scheme.width V) = fun _ => none := rfl

end References

section Stored
variable [Entry V] {scheme : Scheme Point}

theorem nodeValue_ok (lawful : Lawful scheme) (p : Point) :
    nodeValue scheme p = .ok (pointRef scheme p).bytes :=
  intToBytes_ok (lawful.hash_small p)

theorem commit_childList (lawful : Lawful scheme) (f : Fin scheme.width → Option V) :
    ∃ p, arrayPoint scheme f = some p ∧ scheme.commit (childValues (childList f)) = .ok p := by
  obtain ⟨p, run⟩ := lawful.commits (childValues (childList f)) (by simp [childValues])
  exact ⟨p, by rw [arrayPoint, run]; rfl, run⟩

/-- Digits that the node format has room for. -/
def Narrow {width : Nat} (stem : List (Fin width)) : Prop := ∀ c ∈ stem, c.val < 256

theorem narrow_stem {width : Nat} (narrow : width ≤ 256) (stem : List (Fin width)) : Narrow stem :=
  fun c _ => Nat.lt_of_lt_of_le c.isLt narrow

theorem narrow_chunks {width : Nat} {stem : List (Fin width)} (narrow : Narrow stem) :
    ∀ c ∈ stem.map Fin.val, c < 256 := by
  intro c member
  obtain ⟨i, inside, rfl⟩ := List.mem_map.mp member
  exact narrow i inside

theorem commit_extension (lawful : Lawful scheme) {stem : List (Fin scheme.width)}
    (narrow : Narrow stem) (child : Option Word) : ∃ p, extensionPoint scheme stem child = some p ∧
      scheme.commitExtension (stem.map Fin.val) (child.map Word.bytes) = .ok p := by
  obtain ⟨p, run⟩ := lawful.commitsExtension (stem.map Fin.val) (child.map Word.bytes)
    (narrow_chunks narrow)
  exact ⟨p, by rw [extensionPoint, run]; rfl, run⟩

@[simp] theorem refOf_empty : refOf scheme (.empty : Trie scheme.width V) = none := rfl

/- What is on disk. -/

def stemBytes {width : Nat} (stem : List (Fin width)) : Bytes :=
  stem.map fun c => UInt8.ofNat c.val

def Holds (scheme : Scheme Point) (db : Store Bytes Bytes) (p : Point) (content : AnyNode Point) :
    Prop :=
  ∃ encoded, ((pointRef scheme p).bytes, encoded) ∈ db.puts ∧
    scheme.deserializeAnyNode encoded = .ok content

def ArrayWritten (db : Store Bytes Bytes) (flag : UInt8) (f : Fin scheme.width → Option V) :
    Prop :=
  ∃ p, arrayPoint scheme f = some p ∧ Holds scheme db p (.array flag p (childList f))

def ExtensionWritten (db : Store Bytes Bytes) (stem : List (Fin scheme.width)) (child : Word) :
    Prop :=
  ∃ p, extensionPoint scheme stem (some child) = some p ∧
    Holds scheme db p (.extension p (stemBytes stem) child.bytes)

structure Storable {width : Nat} (stem : List (Fin width)) (slots : Fin width → Option V) :
    Prop where
  short : stem.length < 256
  narrow : Narrow stem
  readable : Readable (childList slots)

/-- The database holds every node of the tree. -/
def Written (db : Store Bytes Bytes) : Trie scheme.width V → Prop
  | .empty => True
  | .group stem slots => Storable stem slots ∧ ArrayWritten db PREFIX_SUFFIX slots ∧
      ∃ child, suffixRef scheme slots = some child ∧ ExtensionWritten db stem child
  | .inner kids => ArrayWritten db PREFIX_INTERNAL (refs scheme kids) ∧ ∀ i, Written db (kids i)

/-- Every group is one that the node format has room for. -/
def Sound {width : Nat} : Trie width V → Prop
  | .empty => True
  | .group stem slots => Storable stem slots
  | .inner kids => ∀ i, Sound (kids i)

@[simp] theorem sound_group {width : Nat} (stem : List (Fin width)) (slots : Fin width → Option V) :
    Sound (.group stem slots) ↔ Storable stem slots := Iff.rfl

theorem written_sound {db : Store Bytes Bytes} {t : Trie scheme.width V} (written : Written db t) :
    Sound t := by
  induction t with
  | empty => trivial
  | group stem slots => exact written.1
  | inner kids ih => exact fun i => ih i (written.2 i)

theorem sound_nest {width : Nat} {path : List (Fin width)} {t : Trie width V}
    (sound : Sound (nest path t)) : Sound t := by
  induction path with
  | nil => exact sound
  | cons i path ih =>
    have here := sound i
    rw [Function.update_self] at here
    exact ih here

/-- Words fill their slots, and a width of up to 256 has only narrow digits. -/
theorem sound_words {width : Nat} (narrow : width ≤ 256) {t : Trie width} {n : Nat}
    (fits : Fits t n) (short : n < 256) : Sound t := by
  induction t generalizing n with
  | empty => trivial
  | group stem slots =>
    have length : stem.length = n := fits
    exact ⟨by omega, narrow_stem narrow stem, childList_words slots⟩
  | inner kids ih =>
    obtain ⟨m, size, below⟩ := fits
    exact fun i => ih i (below i) (by omega)

theorem holds_later {db later : Store Bytes Bytes} (moved : db.Extends later) {p : Point}
    {content : AnyNode Point} (held : Holds scheme db p content) : Holds scheme later p content := by
  obtain ⟨encoded, member, loads⟩ := held
  exact ⟨encoded, extends_member moved member, loads⟩

theorem written_later {db later : Store Bytes Bytes} (moved : db.Extends later)
    {t : Trie scheme.width V} (written : Written db t) : Written later t := by
  induction t with
  | empty => trivial
  | group stem slots =>
    obtain ⟨storable, ⟨p, point, held⟩, child, ref, q, point', held'⟩ := written
    exact ⟨storable, ⟨p, point, holds_later moved held⟩, child, ref, q, point',
      holds_later moved held'⟩
  | inner kids ih =>
    obtain ⟨⟨p, point, held⟩, below⟩ := written
    exact ⟨⟨p, point, holds_later moved held⟩, fun i => ih i (below i)⟩

/- Loading. -/

def arrayNode (scheme : Scheme Point) (type : NodeType) (f : Fin scheme.width → Option V)
    (p : Point) : TreeNode Point :=
  { type := type, children := childList f, value := some (pointRef scheme p).bytes
    commitmentToChildren := some p }

def extensionNode (scheme : Scheme Point) (stem : List (Fin scheme.width)) (child : Word)
    (p : Point) : TreeNode Point :=
  { type := .extension, children := List.replicate scheme.width none
    value := some (pointRef scheme p).bytes, commitmentToChildren := some p
    stem := stem.map Fin.val, child := some child.bytes }

theorem stemBytes_toNat {width : Nat} {stem : List (Fin width)} (narrow : Narrow stem) :
    (stemBytes stem).map UInt8.toNat = stem.map Fin.val := by
  simp only [stemBytes, List.map_map]
  apply List.map_congr_left
  intro c member
  have small := narrow c member
  simp [Nat.mod_eq_of_lt small]

theorem makeTreeNode_holds (valid : (db : Store Bytes Bytes).Consistent) {p : Point}
    {content : AnyNode Point} (held : Holds scheme db p content) :
    makeTreeNode scheme db (some (pointRef scheme p).bytes) = ofAnyNode scheme content := by
  obtain ⟨encoded, member, loads⟩ := held
  simp only [makeTreeNode, get_of_member valid member, loads, bind, Except.bind]

theorem load_array (lawful : Lawful scheme) {db : Store Bytes Bytes} (valid : db.Consistent)
    {flag : UInt8} {f : Fin scheme.width → Option V} {p : Point}
    (point : arrayPoint scheme f = some p) (written : ArrayWritten db flag f) :
    makeTreeNode scheme db (some (pointRef scheme p).bytes) =
      .ok (arrayNode scheme (if flag = PREFIX_INTERNAL then .internal else .suffix) f p) := by
  obtain ⟨q, point', held⟩ := written
  cases point.symm.trans point'
  rw [makeTreeNode_holds valid held, ofAnyNode, nodeValue_ok lawful]
  rfl

theorem load_extension (lawful : Lawful scheme) {db : Store Bytes Bytes} (valid : db.Consistent)
    {stem : List (Fin scheme.width)} (narrow : Narrow stem) {child : Word} {p : Point}
    (point : extensionPoint scheme stem (some child) = some p)
    (written : ExtensionWritten db stem child) :
    makeTreeNode scheme db (some (pointRef scheme p).bytes) =
      .ok (extensionNode scheme stem child p) := by
  obtain ⟨q, point', held⟩ := written
  cases point.symm.trans point'
  rw [makeTreeNode_holds valid held, ofAnyNode, nodeValue_ok lawful, stemBytes_toNat narrow]
  rfl

/- Storing. -/

theorem encode_array (lawful : Lawful scheme) {type : NodeType} {flag : UInt8}
    (kind : type = .internal ∧ flag = PREFIX_INTERNAL ∨ type = .suffix ∧ flag = PREFIX_SUFFIX)
    {node : TreeNode Point} (typed : node.type = type) {f : Fin scheme.width → Option V}
    (holds : node.children = childList f) (readable : Readable (childList f)) (p : Point) :
    ∃ encoded, encodeNode scheme node p = .ok encoded ∧
      scheme.deserializeAnyNode encoded = .ok (.array flag p (childList f)) := by
  have flagged : flag = PREFIX_INTERNAL ∨ flag = PREFIX_SUFFIX := by
    rcases kind with ⟨_, equal⟩ | ⟨_, equal⟩ <;> simp [equal]
  obtain ⟨encoded, stored, loads⟩ := lawful.array_lossless flag p (childList f) flagged
    (childList_length f) readable
  refine ⟨encoded, ?_, loads⟩
  rcases kind with ⟨rfl, rfl⟩ | ⟨rfl, rfl⟩ <;> simp only [encodeNode, typed, holds, stored]

theorem encode_extension (lawful : Lawful scheme) {node : TreeNode Point}
    (typed : node.type = .extension) {stem : List (Fin scheme.width)} {child : Word}
    (short : stem.length < 256) (narrow : Narrow stem) (covers : node.stem = stem.map Fin.val)
    (holds : node.child = some child.bytes) (p : Point) :
    ∃ encoded, encodeNode scheme node p = .ok encoded ∧
      scheme.deserializeAnyNode encoded = .ok (.extension p (stemBytes stem) child.bytes) := by
  obtain ⟨encoded, stored, loads⟩ := lawful.extension_lossless p (stemBytes stem) child.bytes
    (by simpa [stemBytes] using short) child.size
  refine ⟨encoded, ?_, loads⟩
  have bytes : bytesOf (stem.map Fin.val) = .ok (stemBytes stem) := by
    rw [bytesOf_ok (narrow_chunks narrow), stemBytes, List.map_map]
    rfl
  simp only [encodeNode, typed, covers, bytes, holds, bind, Except.bind, stored]

end Stored

end VerkleStorage
