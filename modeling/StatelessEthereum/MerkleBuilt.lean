import StatelessEthereum.MerkleRuns
import StatelessEthereum.MerkleEncoding

/- What inserts leave on disk whatever the sizes of keys and values, and whether
   or not an insert raises: every stored encoding is one of a leaf, an extension
   or a branch whose references are absent, whole digests or short encodings. -/
namespace MerkleBuilt
open PythonError BigEndian RlpFormat NibblePaths MerkleNodes MerkleForms StateEffect PutLog DiskLog
open MerkleTrees hiding insert get
open MerkleStorage MerkleRefinement MerkleRuns MerkleEncoding

inductive NodeItem : Item → Prop where
  | leaf {ds : List Nat} {b : Bytes} (digits : ∀ d ∈ ds, d < 16) :
      NodeItem (.list [.str (hexPrefix ds true), .str b])
  | extension {ds : List Nat} {x : Item} (digits : ∀ d ∈ ds, d < 16) (shape : LinkShape x)
      (inline : ∀ xs, x = .list xs → NodeItem x) :
      NodeItem (.list [.str (hexPrefix ds false), x])
  | branch {xs : List Item} {b : Bytes} (count : xs.length = 16) (shape : ∀ x ∈ xs, LinkShape x)
      (inline : ∀ x ∈ xs, ∀ ys, x = .list ys → NodeItem x) :
      NodeItem (.list (xs ++ [.str b]))

structure Link (x : Item) : Prop where
  shape : LinkShape x
  fits : x.Fits
  inline : ∀ xs, x = .list xs → NodeItem x

def IsLink (r : Bytes) : Prop := ∃ x, Link x ∧ linkBytes x = r

def Slots (branches : List PyObj) : Prop :=
  branches.length = 16 ∧ ∀ o ∈ branches, ∃ r, o = .bytes r ∧ IsLink r

inductive WellKept : Node → Prop where
  | leaf {path : NibblePath} {b : Bytes} (hex : path.width = 16) :
      WellKept (.leaf path (.bytes b))
  | extension {path : NibblePath} {r : Bytes} (hex : path.width = 16) (link : IsLink r) :
      WellKept (.extension path (.bytes r))
  | branch {branches : List PyObj} {b : Bytes} (slots : Slots branches) :
      WellKept (.branch branches (.bytes b))

def NodeBytes (e : Bytes) : Prop := ∃ item, NodeItem item ∧ item.Fits ∧ e = item.encode

theorem nodeItem_list {x : Item} (node : NodeItem x) : ∃ xs, x = .list xs := by
  cases node <;> exact ⟨_, rfl⟩

/- References. -/

theorem link_empty : IsLink [] :=
  ⟨.str [], ⟨Or.inl rfl, str_fits (Or.inl rfl), by simp⟩, rfl⟩

theorem link_digest {r : Bytes} (whole : r.length = 32) : IsLink r :=
  ⟨.str r, ⟨Or.inr whole, str_fits (Or.inr whole), by simp⟩, rfl⟩

theorem link_inline {e : Bytes} (node : NodeBytes e) (short : e.length < 32) : IsLink e := by
  obtain ⟨item, shape, fits, rfl⟩ := node
  obtain ⟨xs, rfl⟩ := nodeItem_list shape
  exact ⟨.list xs, ⟨short, fits, fun _ _ => shape⟩, rfl⟩

theorem slots_links {branches : List PyObj} (slots : ∀ o ∈ branches, ∃ r, o = .bytes r ∧ IsLink r) :
    ∃ xs : List Item, branches = xs.map (fun x => .bytes (linkBytes x)) ∧ ∀ x ∈ xs, Link x := by
  induction branches with
  | nil => exact ⟨[], rfl, by simp⟩
  | cons o branches ih =>
    obtain ⟨_, rfl, x, link, rfl⟩ := slots o (by simp)
    obtain ⟨xs, rfl, links⟩ := ih fun o member => slots o (by simp [member])
    exact ⟨x :: xs, rfl, by simpa using ⟨link, links⟩⟩

theorem links_slots {xs : List Item} (count : xs.length = 16) (links : ∀ x ∈ xs, Link x) :
    Slots (xs.map fun x => .bytes (linkBytes x)) := by
  constructor
  · rw [List.length_map, count]
  · intro o member
    obtain ⟨x, inside, rfl⟩ := List.mem_map.mp member
    exact ⟨_, rfl, x, links x inside, rfl⟩

/- What is stored can be loaded, and what is loaded was stored. -/

theorem rlpEncode_inv {x : Item} {e : Bytes} (encoded : rlpEncode x = .ok e) :
    x.Fits ∧ e = x.encode := by
  unfold rlpEncode at encoded
  split at encoded
  · rename_i fits
    cases encoded
    exact ⟨fits, rfl⟩
  · cases encoded

inductive LeadsTo : Node → PyObj → Prop where
  | extension {path : NibblePath} {ref : PyObj} : LeadsTo (.extension path ref) ref
  | branch {branches : List PyObj} {data ref : PyObj} (member : ref ∈ branches) :
      LeadsTo (.branch branches data) ref

inductive Renders : Node → Item → Prop where
  | leaf (path : NibblePath) {b : Bytes} (hex : path.width = 16) :
      Renders (.leaf path (.bytes b)) (.list [.str (hexPrefix path.remaining true), .str b])
  | extension (path : NibblePath) {x : Item} (hex : path.width = 16) (link : Link x) :
      Renders (.extension path (.bytes (linkBytes x)))
        (.list [.str (hexPrefix path.remaining false), x])
  | branch {xs : List Item} {b : Bytes} (count : xs.length = 16) (links : ∀ x ∈ xs, Link x) :
      Renders (.branch (xs.map fun x => .bytes (linkBytes x)) (.bytes b)) (.list (xs ++ [.str b]))

theorem renders_writes {node : Node} {item : Item} (renders : Renders node item) :
    Writes node item := by
  cases renders with
  | leaf path hex => exact .leaf path hex
  | extension path hex link => exact .extension path hex link.shape
  | branch count links => exact .branch count fun x member => (links x member).shape

theorem wellKept_renders {node : Node} (kept : WellKept node) {e : Bytes}
    (encoded : node.encode = .ok e) : ∃ item, Renders node item ∧ item.Fits ∧ e = item.encode := by
  have rendered : ∃ item, Renders node item := by
    cases kept with
    | leaf hex => exact ⟨_, .leaf _ hex⟩
    | extension hex link =>
      obtain ⟨x, link, rfl⟩ := link
      exact ⟨_, .extension _ hex link⟩
    | branch slots =>
      obtain ⟨count, entries⟩ := slots
      obtain ⟨xs, rfl, links⟩ := slots_links entries
      rw [List.length_map] at count
      exact ⟨_, .branch count links⟩
  obtain ⟨item, renders⟩ := rendered
  rw [writes_encode (renders_writes renders)] at encoded
  exact ⟨item, renders, rlpEncode_inv encoded⟩

theorem renders_nodeItem {node : Node} {item : Item} (renders : Renders node item) :
    NodeItem item := by
  cases renders with
  | leaf path hex =>
    exact .leaf (hex ▸ path.remaining_valid)
  | extension path hex link =>
    exact .extension (hex ▸ path.remaining_valid) link.shape link.inline
  | branch count links =>
    exact .branch count (fun x member => (links x member).shape)
      (fun x member => (links x member).inline)

theorem nodeItem_renders {item : Item} (shape : NodeItem item) (fits : item.Fits) :
    ∃ node, Renders node item := by
  cases shape with
  | leaf digits =>
    rename_i ds b
    exact ⟨_, .leaf ⟨16, ds, 0, digits⟩ rfl⟩
  | extension digits linked inline =>
    rename_i ds x
    have inside : x.Fits := fits_member fits (by simp)
    exact ⟨_, .extension ⟨16, ds, 0, digits⟩ rfl ⟨linked, inside, inline⟩⟩
  | branch count linked inline =>
    exact ⟨_, .branch count fun x member =>
      ⟨linked x member, fits_member fits (by simp [member]), inline x member⟩⟩

theorem alike_kept {node again : Node} (kept : WellKept node) (alike : Alike node again)
    {item : Item} (writes : Writes again item) : WellKept again := by
  cases kept with
  | leaf hex =>
    cases writes with
    | leaf path hex' => exact .leaf hex'
    | extension path hex' shape => exact alike.elim
    | branch count shapes => exact alike.elim
  | extension hex link =>
    cases writes with
    | leaf path hex' => exact alike.elim
    | extension path hex' shape =>
      have same := PyObj.bytes.inj alike.2
      exact .extension hex' (same ▸ link)
    | branch count shapes => exact alike.elim
  | branch slots =>
    cases writes with
    | leaf path hex' => exact alike.elim
    | extension path hex' shape => exact alike.elim
    | branch count shapes => exact .branch (alike.1 ▸ slots)

theorem alike_leads {node again : Node} (alike : Alike node again) {ref : PyObj}
    (leads : LeadsTo again ref) : LeadsTo node ref := by
  cases leads with
  | extension =>
    cases node with
    | leaf path data => exact alike.elim
    | extension path nextRef => exact alike.2 ▸ .extension
    | branch branches data => exact alike.elim
  | branch member =>
    cases node with
    | leaf path data => exact alike.elim
    | extension path nextRef => exact alike.elim
    | branch branches data => exact .branch (alike.1 ▸ member)

theorem renders_decode {node : Node} {item : Item} (renders : Renders node item)
    (fits : item.Fits) : ∃ node', Node.decode item.encode = .ok node' ∧ WellKept node' ∧
      ∀ ref, LeadsTo node' ref → LeadsTo node ref := by
  obtain ⟨again, decoded, writes, alike⟩ := writes_decode (renders_writes renders) fits
  have kept : WellKept node := by
    cases renders with
    | leaf path hex => exact .leaf hex
    | extension path hex link => exact .extension hex ⟨_, link, rfl⟩
    | branch count links => exact .branch (links_slots count links)
  exact ⟨again, decoded, alike_kept kept alike writes, fun ref leads => alike_leads alike leads⟩

theorem wellKept_encode {node : Node} (kept : WellKept node) {e : Bytes}
    (encoded : node.encode = .ok e) : NodeBytes e := by
  obtain ⟨item, renders, fits, rfl⟩ := wellKept_renders kept encoded
  exact ⟨item, renders_nodeItem renders, fits, rfl⟩

theorem nodeBytes_decode {e : Bytes} (stored : NodeBytes e) :
    ∃ node, Node.decode e = .ok node ∧ WellKept node := by
  obtain ⟨item, shape, fits, rfl⟩ := stored
  obtain ⟨node, renders⟩ := nodeItem_renders shape fits
  obtain ⟨node', decoded, kept, _⟩ := renders_decode renders fits
  exact ⟨node', decoded, kept⟩

/- Every step of an insert keeps the disk so. -/

structure Kept (t : MerklePatriciaTrie) : Prop where
  nodes : ∀ p ∈ t.disk.db.puts, NodeBytes p.2
  rootRef : ∀ r, t.rootRef = some r → IsLink r
  rootFile : ∀ r, t.disk.rootFile = some r → IsLink r

theorem getNode_inv {scheme : Scheme} {db : Store Bytes Bytes} {ref : PyObj} {node : Node}
    (loaded : getNode scheme db ref = .ok node) :
    ∃ r data, db.get r = some data ∧ scheme.decode data = .ok node := by
  cases ref with
  | bytes r =>
    unfold getNode at loaded
    cases found : db.get r with
    | none => simp [found] at loaded
    | some data => exact ⟨r, data, found, by simpa only [found] using loaded⟩
  | none => simp [getNode] at loaded
  | int n => simp [getNode] at loaded
  | list xs => simp [getNode] at loaded

theorem getNode_wellKept {keccak : Bytes → Bytes} {db : Store Bytes Bytes}
    (stored : ∀ p ∈ db.puts, NodeBytes p.2) {ref : PyObj} {node : Node}
    (loaded : getNode (keccakScheme keccak) db ref = .ok node) : WellKept node := by
  obtain ⟨r, data, found, decoded⟩ := getNode_inv loaded
  obtain ⟨node', read, kept⟩ := nodeBytes_decode (stored _ (get_member found))
  rw [keccakScheme_decode, read] at decoded
  cases decoded
  exact kept

/- References that lead somewhere: every whole digest that a stored node or the
   root mentions is the key of a stored node. -/

def Held (db : Store Bytes Bytes) (r : Bytes) : Prop := r.length = 32 → ∃ e, (r, e) ∈ db.puts

structure Linked (db : Store Bytes Bytes) (r : Bytes) : Prop where
  link : IsLink r
  held : Held db r

structure Anchored (db : Store Bytes Bytes) (node : Node) : Prop where
  kept : WellKept node
  held : ∀ r, LeadsTo node (.bytes r) → Held db r

structure SlotsHeld (db : Store Bytes Bytes) (branches : List PyObj) : Prop where
  slots : Slots branches
  held : ∀ r, .bytes r ∈ branches → Held db r

structure Living (t : MerklePatriciaTrie) : Prop extends Kept t where
  closed : ∀ p ∈ t.disk.db.puts, ∀ node, Node.decode p.2 = .ok node →
    ∀ r, LeadsTo node (.bytes r) → Held t.disk.db r
  refHeld : ∀ r, t.rootRef = some r → Held t.disk.db r
  fileHeld : ∀ r, t.disk.rootFile = some r → Held t.disk.db r

theorem held_short {db : Store Bytes Bytes} {r : Bytes} (other : r.length ≠ 32) : Held db r :=
  fun whole => absurd whole other

theorem held_later {db later : Store Bytes Bytes} (grows : db.Extends later) {r : Bytes}
    (held : Held db r) : Held later r := by
  intro whole
  obtain ⟨e, member⟩ := held whole
  exact ⟨e, extends_member grows member⟩

theorem slotsHeld_later {db later : Store Bytes Bytes} (grows : db.Extends later)
    {branches : List PyObj} (slots : SlotsHeld db branches) : SlotsHeld later branches :=
  ⟨slots.slots, fun r member => held_later grows (slots.held r member)⟩

theorem linked_later {db later : Store Bytes Bytes} (grows : db.Extends later) {r : Bytes}
    (linked : Linked db r) : Linked later r := ⟨linked.link, held_later grows linked.held⟩

theorem anchored_leaf {db : Store Bytes Bytes} (path : NibblePath) (hex : path.width = 16)
    (b : Bytes) : Anchored db (.leaf path (.bytes b)) :=
  ⟨.leaf hex, fun _ leads => by cases leads⟩

theorem anchored_extension {db : Store Bytes Bytes} (path : NibblePath) (hex : path.width = 16)
    {r : Bytes} (linked : Linked db r) : Anchored db (.extension path (.bytes r)) := by
  constructor
  · exact .extension hex linked.link
  · intro r leads
    cases leads
    exact linked.held

theorem anchored_branch {db : Store Bytes Bytes} {branches : List PyObj}
    (slots : SlotsHeld db branches) (b : Bytes) : Anchored db (.branch branches (.bytes b)) := by
  constructor
  · exact .branch slots.slots
  · intro r leads
    cases leads with
    | branch member => exact slots.held r member

theorem emptyBranches_held (db : Store Bytes Bytes) : SlotsHeld db emptyBranches := by
  refine ⟨⟨List.length_replicate, ?_⟩, ?_⟩
  · intro o member
    rw [List.eq_of_mem_replicate member]
    exact ⟨[], rfl, link_empty⟩
  · intro r member
    rw [PyObj.bytes.inj (List.eq_of_mem_replicate member)]
    exact held_short (by decide)

theorem set_held {db : Store Bytes Bytes} {branches : List PyObj} (slots : SlotsHeld db branches)
    (idx : Nat) {r : Bytes} (linked : Linked db r) : SlotsHeld db (branches.set idx (.bytes r)) := by
  refine ⟨⟨by rw [List.length_set, slots.slots.1], ?_⟩, ?_⟩
  · intro o member
    rcases List.mem_or_eq_of_mem_set member with older | rfl
    · exact slots.slots.2 o older
    · exact ⟨r, rfl, linked.link⟩
  · intro q member
    rcases List.mem_or_eq_of_mem_set member with older | same
    · exact slots.held q older
    · rw [PyObj.bytes.inj same]
      exact linked.held

theorem setEntry_held {db : Store Bytes Bytes} {branches : List PyObj}
    (slots : SlotsHeld db branches) {idx : Nat} {r : Bytes} (linked : Linked db r)
    {updated : List PyObj} (assigned : setEntry branches idx (.bytes r) = .ok updated) :
    SlotsHeld db updated := by
  unfold setEntry at assigned
  split at assigned
  · cases assigned
    exact set_held slots idx linked
  · cases assigned

section Steps
variable (keccak : Keccak)

/-- Putting a node whose references are held. -/
theorem living_put {s : MerklePatriciaTrie} (before : Living s) {node : Node}
    (anchored : Anchored s.disk.db node) {e : Bytes} (encoded : node.encode = .ok e) :
    Living { s with disk := s.disk.apply (.put (keccak.hash e) e) } := by
  have grows := (puts_write s (keccak.hash e) e).grows
  refine ⟨⟨?_, before.rootRef, before.rootFile⟩, ?_, ?_, ?_⟩
  · intro p member
    rcases List.mem_cons.mp member with rfl | older
    · exact wellKept_encode anchored.kept encoded
    · exact before.nodes p older
  · intro p member node' decoded r leads
    rcases List.mem_cons.mp member with rfl | older
    · obtain ⟨item, renders, fits, rfl⟩ := wellKept_renders anchored.kept encoded
      obtain ⟨loaded, read, _, back⟩ := renders_decode renders fits
      rw [decoded] at read
      cases read
      exact held_later grows (anchored.held r (back _ leads))
    · exact held_later grows (before.closed p older node' decoded r leads)
  · intro r root
    exact held_later grows (before.refHeld r root)
  · intro r root
    exact held_later grows (before.fileHeld r root)

theorem storeNode_living {node : Node} {s : MerklePatriciaTrie}
    (anchored : Anchored s.disk.db node) :
    Maintains Living (storeNode (keccakScheme keccak.hash) node) s fun r t =>
      Linked t.disk.db r := by
  intro before
  cases encoded : node.encode with
  | error e =>
    have failed : intoReference keccak.hash node = .error e := by
      simp only [intoReference, encoded, bind, Except.bind]
    simp [storeNode, keccakScheme, failed, bind_run, before]
  | ok e =>
    have bytes := wellKept_encode anchored.kept encoded
    have referred : intoReference keccak.hash node =
        .ok (if e.length < 32 then e else keccak.hash e) := by
      simp only [intoReference, encoded, bind, Except.bind]
    by_cases short : e.length < 32
    · have inline : e.length ≠ 32 := by omega
      rw [if_pos short] at referred
      simp only [storeNode, keccakScheme, referred, encoded, lift_run, bind_run, inline,
        ↓reduceIte, pure_run]
      refine ⟨before, ?_⟩
      intro r same
      cases same
      exact ⟨link_inline bytes short, held_short inline⟩
    · rw [if_neg short] at referred
      simp only [storeNode, keccakScheme, referred, encoded, lift_run, bind_run, keccak.size,
        ↓reduceIte, pure_run, write, modify_run]
      refine ⟨living_put keccak before anchored encoded, ?_⟩
      intro r same
      cases same
      exact ⟨link_digest (keccak.size e), fun _ => ⟨e, List.mem_cons_self⟩⟩

theorem createBranchLeaf_living {path : NibblePath} (hex : path.width = 16) (b : Bytes)
    {branches : List PyObj} {s : MerklePatriciaTrie} (slots : SlotsHeld s.disk.db branches) :
    Maintains Living (createBranchLeaf (keccakScheme keccak.hash) path (.bytes b) branches) s
      fun branches t => SlotsHeld t.disk.db branches := by
  unfold createBranchLeaf
  split
  · refine maintains_bind_lift fun idx _ => ?_
    refine maintains_bind (storeNode_puts _ _)
      (storeNode_living keccak (anchored_leaf (path.consume 1) hex b)) fun r t moved linked => ?_
    exact maintains_lift fun _ assigned =>
      setEntry_held (slotsHeld_later moved.grows slots) linked assigned
  · exact maintains_pure slots

theorem createBranchExtension_living {path : NibblePath} (hex : path.width = 16) {r : Bytes}
    {branches : List PyObj} {s : MerklePatriciaTrie} (linked : Linked s.disk.db r)
    (slots : SlotsHeld s.disk.db branches) :
    Maintains Living (createBranchExtension (keccakScheme keccak.hash) path (.bytes r) branches) s
      fun branches t => SlotsHeld t.disk.db branches := by
  unfold createBranchExtension
  split
  · exact maintains_raise _ _ _
  · split
    · refine maintains_bind_lift fun idx _ => ?_
      exact maintains_lift fun _ assigned => setEntry_held slots linked assigned
    · refine maintains_bind_lift fun idx _ => ?_
      have anchored : Anchored s.disk.db (.extension (path.consume 1) (.bytes r)) :=
        anchored_extension (path.consume 1) hex linked
      refine maintains_bind (storeNode_puts _ _) (storeNode_living keccak anchored)
        fun r t moved linked => ?_
      exact maintains_lift fun _ assigned =>
        setEntry_held (slotsHeld_later moved.grows slots) linked assigned

theorem createBranchLeaf_puts (path : NibblePath) (value : PyObj) (branches : List PyObj) :
    Along Puts (createBranchLeaf (keccakScheme keccak.hash) path value branches) :=
  along_createBranchLeaf puts_refl puts_trans (storeNode_puts _) path value branches

theorem createBranchNode_living {pathA pathB : NibblePath} (hexA : pathA.width = 16)
    (hexB : pathB.width = 16) (a b : Bytes) (s : MerklePatriciaTrie) :
    Maintains Living
      (createBranchNode (keccakScheme keccak.hash) pathA (.bytes a) pathB (.bytes b)) s
      fun r t => Linked t.disk.db r := by
  unfold createBranchNode
  split
  · exact maintains_raise _ _ _
  · refine maintains_bind (createBranchLeaf_puts keccak _ _ _)
      (createBranchLeaf_living keccak hexA a (emptyBranches_held _)) fun _ _ _ slots => ?_
    refine maintains_bind (createBranchLeaf_puts keccak _ _ _)
      (createBranchLeaf_living keccak hexB b slots) fun _ _ _ slots => ?_
    have value : ∃ v, (if pathA.len = 0 then PyObj.bytes a else if pathB.len = 0 then .bytes b
        else .bytes []) = .bytes v := by
      split
      · exact ⟨a, rfl⟩
      · split
        · exact ⟨b, rfl⟩
        · exact ⟨[], rfl⟩
    obtain ⟨v, value⟩ := value
    rw [value]
    exact storeNode_living keccak (anchored_branch slots v)

theorem storeAbove_living {path : NibblePath} (hex : path.width = 16) {r : Bytes}
    {s : MerklePatriciaTrie} (linked : Linked s.disk.db r) :
    Maintains Living (storeAbove (keccakScheme keccak.hash) path r) s fun r t =>
      Linked t.disk.db r := by
  unfold storeAbove
  split
  · exact storeNode_living keccak (anchored_extension _ hex linked)
  · exact maintains_pure linked

theorem updateLeaf_living {nodePath path : NibblePath} (hexNode : nodePath.width = 16)
    (hex : path.width = 16) (b value : Bytes) (s : MerklePatriciaTrie) :
    Maintains Living (updateLeaf (keccakScheme keccak.hash) nodePath (.bytes b) path value) s
      fun r t => Linked t.disk.db r := by
  unfold updateLeaf
  split
  · exact storeNode_living keccak (anchored_leaf _ hexNode value)
  · have hexRest : (path.consume (path.commonPrefix nodePath).len).width = 16 := hex
    have hexBelow : (nodePath.consume (path.commonPrefix nodePath).len).width = 16 := hexNode
    have hexCommon : (path.commonPrefix nodePath).width = 16 := hex
    refine maintains_bind (along_createBranchNode puts_refl puts_trans (storeNode_puts _) _ _ _ _)
      (createBranchNode_living keccak hexRest hexBelow value b s) fun r t _ linked => ?_
    exact storeAbove_living keccak hexCommon linked

/-- What the recursion of `_update` does below a node. -/
def NextLiving (next : PyObj → NibblePath → TrieEffect Bytes) : Prop :=
  ∀ ref (path : NibblePath) s, path.width = 16 →
    Maintains Living (next ref path) s fun r t => Linked t.disk.db r

theorem updateExtension_living {next : PyObj → NibblePath → TrieEffect Bytes}
    (below : NextLiving next) (moves : ∀ ref path, Along Puts (next ref path))
    {nodePath path : NibblePath} (hexNode : nodePath.width = 16) (hex : path.width = 16) {r : Bytes}
    {s : MerklePatriciaTrie} (linked : Linked s.disk.db r) (value : Bytes) :
    Maintains Living (updateExtension (keccakScheme keccak.hash) next nodePath (.bytes r) path value)
      s fun r t => Linked t.disk.db r := by
  unfold updateExtension
  split
  · refine maintains_bind (moves _ _) (below _ (path.consume nodePath.len) s hex)
      fun r t _ linked => ?_
    exact storeNode_living keccak (anchored_extension _ hexNode linked)
  · have hexRest : (path.consume (path.commonPrefix nodePath).len).width = 16 := hex
    have hexBelow : (nodePath.consume (path.commonPrefix nodePath).len).width = 16 := hexNode
    have hexCommon : (path.commonPrefix nodePath).width = 16 := hex
    refine maintains_bind (createBranchLeaf_puts keccak _ _ _)
      (createBranchLeaf_living keccak hexRest value (emptyBranches_held _))
      fun _ t moved slots => ?_
    refine maintains_bind (along_createBranchExtension puts_refl puts_trans (storeNode_puts _) _ _ _)
      (createBranchExtension_living keccak hexBelow (linked_later moved.grows linked) slots)
      fun _ _ _ slots => ?_
    have last : ∃ v, (if (path.consume (path.commonPrefix nodePath).len).len = 0 then
        PyObj.bytes value else .bytes []) = .bytes v := by
      split
      · exact ⟨value, rfl⟩
      · exact ⟨[], rfl⟩
    obtain ⟨v, last⟩ := last
    rw [last]
    refine maintains_bind (storeNode_puts _ _) (storeNode_living keccak (anchored_branch slots v))
      fun r t _ linked => ?_
    exact storeAbove_living keccak hexCommon linked

theorem updateBranch_living {next : PyObj → NibblePath → TrieEffect Bytes}
    (below : NextLiving next) (moves : ∀ ref path, Along Puts (next ref path))
    {branches : List PyObj} {s : MerklePatriciaTrie} (slots : SlotsHeld s.disk.db branches)
    {path : NibblePath} (hex : path.width = 16) (b value : Bytes) :
    Maintains Living (updateBranch (keccakScheme keccak.hash) next branches (.bytes b) path value)
      s fun r t => Linked t.disk.db r := by
  unfold updateBranch
  split
  · exact storeNode_living keccak (anchored_branch slots value)
  · refine maintains_bind_lift fun idx _ => ?_
    refine maintains_bind_lift fun child _ => ?_
    refine maintains_bind (moves _ _) (below child (path.consume 1) s hex) fun r t moved linked => ?_
    have changed := set_held (slotsHeld_later moved.grows slots) idx linked
    exact storeNode_living keccak (anchored_branch changed b)

theorem getNode_anchored {s : MerklePatriciaTrie} (living : Living s) {ref : PyObj} {node : Node}
    (loaded : getNode (keccakScheme keccak.hash) s.disk.db ref = .ok node) :
    Anchored s.disk.db node := by
  refine ⟨getNode_wellKept living.nodes loaded, ?_⟩
  obtain ⟨r, data, found, decoded⟩ := getNode_inv loaded
  exact living.closed _ (get_member found) node decoded

theorem update_living (depth : Nat) (ref : PyObj) {path : NibblePath} (hex : path.width = 16)
    (value : Bytes) (s : MerklePatriciaTrie) :
    Maintains Living (update (keccakScheme keccak.hash) depth ref path value) s fun r t =>
      Linked t.disk.db r := by
  induction depth generalizing ref path s with
  | zero => exact maintains_raise _ _ _
  | succ depth ih =>
    have below : NextLiving fun ref rest => update (keccakScheme keccak.hash) depth ref rest value :=
      fun ref path s width => ih ref width s
    have moves (ref : PyObj) (rest : NibblePath) :=
      update_puts (keccakScheme keccak.hash) depth ref rest value
    unfold update
    split
    · exact storeNode_living keccak (anchored_leaf _ hex value)
    · refine maintains_bind_reads fun node living loaded => ?_
      obtain ⟨kept, held⟩ := getNode_anchored keccak living loaded
      cases kept with
      | leaf hexNode => exact updateLeaf_living keccak hexNode hex _ value s
      | extension hexNode link =>
        have linked : Linked s.disk.db _ := ⟨link, held _ .extension⟩
        exact updateExtension_living keccak below moves hexNode hex linked value
      | branch slots =>
        have whole : SlotsHeld s.disk.db _ := ⟨slots, fun r member => held r (.branch member)⟩
        exact updateBranch_living keccak below moves whole hex _ value

theorem insert_living (secure : Bool) (key value : Bytes) :
    Keeps Living (MerkleTrees.insert (keccakScheme keccak.hash) secure key value) fun _ => True := by
  obtain ⟨path, parsed, hex, _⟩ :=
    ofBytes_hex (if secure then keccak.hash key else key) 0
  intro s
  change Maintains Living _ s fun _ _ => True
  unfold MerkleTrees.insert
  refine maintains_bind_lift fun p same => ?_
  rw [keyPath, keccakScheme, parsed] at same
  cases same
  refine maintains_bind_reads fun root _ _ => ?_
  refine maintains_bind (update_puts _ _ _ _ _) (update_living keccak _ _ hex value s)
    fun r t _ linked => ?_
  intro before
  simp only [write, bind_run, modify_run]
  refine ⟨⟨⟨before.nodes, ?_, ?_⟩, before.closed, ?_, ?_⟩, fun _ _ => trivial⟩
  · intro r' same
    cases same
    exact linked.link
  · intro r' same
    rw [rootFile_writeRoot] at same
    cases same
    exact linked.link
  · intro r' same
    cases same
    exact linked.held
  · intro r' same
    rw [rootFile_writeRoot] at same
    cases same
    exact linked.held

end Steps

/-- The tries that the program can hold: calls of `insert`, whether they return
    or raise, and reopening from disk. -/
inductive Built (keccak : Keccak) (secure : Bool) : MerklePatriciaTrie → Prop where
  | empty : Built keccak secure emptyTrie
  | insert {t : MerklePatriciaTrie} (built : Built keccak secure t) (key value : Bytes) :
      Built keccak secure (MerkleTrees.insert (keccakScheme keccak.hash) secure key value t).2
  | reopen {t : MerklePatriciaTrie} (built : Built keccak secure t) :
      Built keccak secure (openTrie t.disk)

theorem built_living {keccak : Keccak} {secure : Bool} {t : MerklePatriciaTrie}
    (built : Built keccak secure t) : Living t := by
  induction built with
  | empty =>
    refine ⟨⟨?_, ?_, ?_⟩, ?_, ?_, ?_⟩ <;> simp [emptyTrie, openTrie, Disk.db, Disk.rootFile]
  | insert _ key value ih => exact (insert_living keccak secure key value _ ih).1
  | reopen _ ih => exact ⟨⟨ih.nodes, ih.rootFile, ih.rootFile⟩, ih.closed, ih.fileHeld, ih.fileHeld⟩

theorem built_kept {keccak : Keccak} {secure : Bool} {t : MerklePatriciaTrie}
    (built : Built keccak secure t) : Kept t := (built_living built).toKept

/-- A run of inserts, cut off by the first that raises. -/
theorem built_run {keccak : Keccak} {secure : Bool} {t : MerklePatriciaTrie}
    (built : Built keccak secure t) (run : List (Bytes × Bytes)) :
    Built keccak secure (insertEach (keccakScheme keccak.hash) secure run t).2 := by
  induction run generalizing t with
  | nil => exact built
  | cons e run ih =>
    have one := Built.insert built e.1 e.2
    simp only [insertEach, forEach, bind_run] at ih ⊢
    cases ran : MerkleTrees.insert (keccakScheme keccak.hash) secure e.1 e.2 t with
    | mk result t' =>
      rw [ran] at one
      cases result with
      | ok _ => exact ih one
      | error _ => exact one

/- What the prover collects. -/

theorem collectEncoded_nodeBytes {db : Store Bytes Bytes} (stored : ∀ p ∈ db.puts, NodeBytes p.2)
    {r e : Bytes} (link : IsLink r) (collected : collectEncoded db (.bytes r) = .ok e) :
    e = [] ∨ NodeBytes e := by
  simp only [collectEncoded, PyObj.len, bind, Except.bind] at collected
  split at collected
  · cases found : db.get r with
    | none => simp [found] at collected
    | some data =>
      rw [found] at collected
      cases collected
      exact Or.inr (stored _ (get_member found))
  · rename_i partly
    cases collected
    obtain ⟨x, link, rfl⟩ := link
    cases x with
    | str b =>
      rcases link.shape with none | whole
      · exact Or.inl none
      · exact absurd whole partly
    | list xs => exact Or.inr ⟨_, link.inline xs rfl, link.fits, rfl⟩

theorem leadsTo_link {node : Node} (kept : WellKept node) {ref : PyObj} (leads : LeadsTo node ref) :
    ∃ r, ref = .bytes r ∧ IsLink r := by
  cases kept with
  | leaf hex => cases leads
  | extension hex link =>
    cases leads
    exact ⟨_, rfl, link⟩
  | branch slots =>
    cases leads with
    | branch member => exact slots.2 ref member

/-- A collected list is a last node, or a node before the list of a child. -/
theorem collect_inv {scheme : Scheme} {db : Store Bytes Bytes} {depth : Nat} {ref : PyObj}
    {path : NibblePath} {nodes : List Bytes} {last : Node}
    (walked : collect scheme db (depth + 1) ref path = .ok (nodes, last)) :
    ∃ e node, collectEncoded db ref = .ok e ∧ scheme.decode e = .ok node ∧
      (nodes = [e] ∨ ∃ next rest path', LeadsTo node next ∧
        collect scheme db depth next path' = .ok (rest, last) ∧ nodes = e :: rest) := by
  simp only [collect, bind, Except.bind] at walked
  cases collected : collectEncoded db ref with
  | error e => simp [collected] at walked
  | ok e =>
    cases decoded : scheme.decode e with
    | error e => simp [collected, decoded] at walked
    | ok node =>
      refine ⟨e, node, rfl, decoded, ?_⟩
      simp only [collected, decoded] at walked
      cases node with
      | leaf nodePath data =>
        dsimp only at walked
        split at walked
        · cases walked
          exact Or.inl rfl
        · cases walked
      | extension nodePath next =>
        dsimp only at walked
        split at walked
        · cases walked
        · split at walked
          · cases walked
          · cases below : collect scheme db depth next (path.consume nodePath.len) with
            | error e => simp [below] at walked
            | ok found =>
              rw [below] at walked
              cases walked
              exact Or.inr ⟨next, found.1, _, .extension, below, rfl⟩
      | branch branches data =>
        dsimp only at walked
        split at walked
        · cases data <;> cases walked <;> exact Or.inl rfl
        · cases digit : path.atIndex 0 with
          | error e => simp [digit] at walked
          | ok idx =>
            cases child : entry branches idx with
            | error e => simp [digit, child] at walked
            | ok next =>
              have member : next ∈ branches := entry_member child
              cases size : next.len with
              | error e => simp [digit, child, size] at walked
              | ok length =>
                simp only [digit, child, size] at walked
                split at walked
                · cases walked
                · cases below : collect scheme db depth next (path.consume 1) with
                  | error e => simp [below] at walked
                  | ok found =>
                    rw [below] at walked
                    cases walked
                    exact Or.inr ⟨next, found.1, _, .branch member, below, rfl⟩

theorem collect_nodeBytes {keccak : Bytes → Bytes} {db : Store Bytes Bytes}
    (stored : ∀ p ∈ db.puts, NodeBytes p.2) (depth : Nat) {r : Bytes} (link : IsLink r)
    (path : NibblePath) {nodes : List Bytes} {last : Node}
    (walked : collect (keccakScheme keccak) db depth (.bytes r) path = .ok (nodes, last)) :
    ∀ e ∈ nodes, NodeBytes e := by
  induction depth generalizing r path nodes last with
  | zero => simp [collect] at walked
  | succ depth ih =>
    obtain ⟨e, node, collected, decoded, shape⟩ := collect_inv walked
    have bytes : NodeBytes e := by
      rcases collectEncoded_nodeBytes stored link collected with rfl | bytes
      · have none : Node.decode [] = .error .decodingError := rfl
        simp [none] at decoded
      · exact bytes
    rcases shape with rfl | ⟨next, rest, path', leads, below, rfl⟩
    · simpa using bytes
    · obtain ⟨node', read, kept⟩ := nodeBytes_decode bytes
      rw [keccakScheme_decode, read] at decoded
      cases decoded
      obtain ⟨r', rfl, link'⟩ := leadsTo_link kept leads
      have others := ih link' path' below
      intro x member
      rcases List.mem_cons.mp member with rfl | later
      · exact bytes
      · exact others x later

theorem getProofTree_nodeBytes {keccak : Keccak} {secure : Bool} {t : MerklePatriciaTrie}
    (built : Built keccak secure t) {key : Bytes} {nodes : List Bytes}
    (proved : getProofTree (keccakScheme keccak.hash) secure t key = .ok nodes) :
    ∀ e ∈ nodes, NodeBytes e := by
  have kept := built_kept built
  unfold getProofTree at proved
  cases root : t.rootRef with
  | none => simp [root] at proved
  | some r =>
    simp only [root, bind, Except.bind] at proved
    cases parsed : keyPath (keccakScheme keccak.hash) secure key with
    | error e => simp [parsed] at proved
    | ok path =>
      cases walked : collect (keccakScheme keccak.hash) t.disk.db (path.len + 1) (.bytes r) path with
      | error e => simp [parsed, walked] at proved
      | ok found =>
        simp only [parsed, walked] at proved
        split at proved
        · cases proved
        · cases proved
          exact collect_nodeBytes kept.nodes _ (kept.rootRef r root) path walked

end MerkleBuilt
