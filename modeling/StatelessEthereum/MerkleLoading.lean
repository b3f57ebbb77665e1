import StatelessEthereum.MerkleHistory

/- What the trie can load of what it stored. A node is filed under its digest,
   and a short one not at all: its reference is its encoding, which the prover
   reads as such and the trie looks up in the database. -/
namespace MerkleLoading
open PythonError BigEndian RlpFormat NibblePaths MerkleNodes MerkleForms StateEffect PutLog DiskLog
open MerkleTrees hiding insert get
open MerkleStorage MerkleRuns MerkleEncoding MerkleBuilt MerkleHistory

def IsKeyError : PyError → Prop
  | .keyError _ => True
  | _ => False

instance (e : PyError) : Decidable (IsKeyError e) := by
  unfold IsKeyError
  split <;> infer_instance

inductive Met (scheme : Scheme) (t : MerklePatriciaTrie) : Bytes → Prop where
  | root {r : Bytes} (held : t.rootRef = some r) : Met scheme t r
  | next {r s : Bytes} {node : Node} (met : Met scheme t r)
      (loaded : getNode scheme t.disk.db (.bytes r) = .ok node)
      (leads : LeadsTo node (.bytes s)) : Met scheme t s

theorem loaded_member {scheme : Scheme} {db : Store Bytes Bytes} {r : Bytes} {node : Node}
    (loaded : getNode scheme db (.bytes r) = .ok node) : ∃ e, (r, e) ∈ db.puts := by
  unfold getNode at loaded
  cases found : db.get r with
  | none => simp [found] at loaded
  | some e => exact ⟨e, get_member found⟩

/- One node. -/
section Node
variable (keccak : Keccak)

theorem store_load_iff {s : MerklePatriciaTrie} (digests : ∀ p ∈ s.disk.db.puts, p.1.length = 32)
    {node : Node} (encodable : EncodableNode node) :
    ∃ e r t, node.encode = .ok e ∧ storeNode (keccakScheme keccak.hash) node s = (.ok r, t) ∧
      ((∃ again, getNode (keccakScheme keccak.hash) t.disk.db (.bytes r) = .ok again ∧
        Alike node again) ↔ 32 ≤ e.length) := by
  obtain ⟨item, writes, fits⟩ := encodableNode_writes encodable
  obtain ⟨again, decoded, _, alike⟩ := writes_decode writes fits
  have encoded : node.encode = .ok item.encode := (writes_encode writes).trans (if_pos fits)
  generalize item.encode = e at decoded encoded
  have referred : intoReference keccak.hash node =
      .ok (if e.length < 32 then e else keccak.hash e) := by
    simp only [intoReference, encoded, bind, Except.bind]
  by_cases short : e.length < 32
  · rw [if_pos short] at referred
    have inline : e.length ≠ 32 := by omega
    have stored : storeNode (keccakScheme keccak.hash) node s = (.ok e, s) := by
      simp only [storeNode, keccakScheme, referred, encoded, lift_run, bind_run, inline,
        ↓reduceIte, pure_run]
    refine ⟨e, e, s, encoded, stored, ?_⟩
    constructor
    · rintro ⟨loaded, read, _⟩
      obtain ⟨data, member⟩ := loaded_member read
      exact absurd (digests _ member) inline
    · intro long
      omega
  · rw [if_neg short] at referred
    have stored : storeNode (keccakScheme keccak.hash) node s =
        (.ok (keccak.hash e), { s with disk := s.disk.apply (.put (keccak.hash e) e) }) := by
      simp only [storeNode, keccakScheme, referred, encoded, lift_run, bind_run, keccak.size,
        ↓reduceIte, pure_run, write, modify_run]
    have loaded : getNode (keccakScheme keccak.hash) (s.disk.apply (.put (keccak.hash e) e)).db
        (.bytes (keccak.hash e)) = .ok again := by
      simp only [getNode, db_put, get_put, keccakScheme_decode, decoded]
    exact ⟨e, _, _, encoded, stored, fun _ => by omega, fun _ => ⟨again, loaded, alike⟩⟩

end Node

/- Nothing but loading raises a KeyError. -/

theorem spares_encode (path : NibblePath) (isLeaf : Bool) :
    Spares IsKeyError (path.encode isLeaf) := by
  unfold NibblePath.encode
  split
  · exact spares_ok _
  · split
    · exact spares_error id
    · split
      · exact spares_error id
      · exact spares_ok _

theorem spares_rlpEncode (x : Item) : Spares IsKeyError (rlpEncode x) := by
  unfold rlpEncode
  split
  · exact spares_ok _
  · exact spares_error id

theorem spares_toItem (o : PyObj) : Spares IsKeyError o.toItem := by
  cases o with
  | none => exact spares_error id
  | int n => exact spares_ok _
  | bytes b => exact spares_ok _
  | list xs => exact spares_ok _

theorem spares_rlpEncodeList (xs : List PyObj) : Spares IsKeyError (rlpEncodeList xs) :=
  spares_bind (spares_mapM spares_toItem xs) fun items => spares_rlpEncode (.list items)

theorem spares_prepare (o : PyObj) : Spares IsKeyError (prepareReferenceForEncoding o) := by
  have sized : Spares IsKeyError o.len := by
    cases o with
    | none => exact spares_error id
    | int n => exact spares_error id
    | bytes b => exact spares_ok _
    | list xs => exact spares_ok _
  refine spares_bind sized fun length => ?_
  split
  · cases o with
    | bytes b =>
      have read : Spares IsKeyError (rlpDecode b) := by
        unfold rlpDecode
        split
        · exact spares_ok _
        · exact spares_error id
      exact spares_bind read fun item => spares_ok _
    | none => exact spares_error id
    | int n => exact spares_error id
    | list xs => exact spares_error id
  · exact spares_ok _

theorem spares_nodeEncode (node : Node) : Spares IsKeyError node.encode := by
  cases node with
  | leaf path data =>
    exact spares_bind (spares_encode path true) fun _ => spares_rlpEncodeList _
  | extension path nextRef =>
    exact spares_bind (spares_prepare nextRef) fun _ =>
      spares_bind (spares_encode path false) fun _ => spares_rlpEncodeList _
  | branch branches data =>
    exact spares_bind (spares_mapM spares_prepare branches) fun _ => spares_rlpEncodeList _

theorem spares_atIndex (path : NibblePath) (idx : Nat) : Spares IsKeyError (path.atIndex idx) := by
  unfold NibblePath.atIndex
  split
  · exact spares_ok _
  · exact spares_error id

theorem spares_entry (xs : List PyObj) (idx : Nat) : Spares IsKeyError (entry xs idx) := by
  unfold entry
  split
  · exact spares_ok _
  · exact spares_error id

theorem spares_setEntry (xs : List PyObj) (idx : Nat) (x : PyObj) :
    Spares IsKeyError (setEntry xs idx x) := by
  unfold setEntry
  split
  · exact spares_ok _
  · exact spares_error id

section Updates
variable (keccak : Keccak)

theorem storeNode_avoids (node : Node) (s : MerklePatriciaTrie) :
    Avoids IsKeyError (storeNode (keccakScheme keccak.hash) node) s := by
  have referred : Spares IsKeyError (intoReference keccak.hash node) :=
    spares_bind (spares_nodeEncode node) fun _ => spares_ok _
  refine avoids_bind_lift referred fun reference _ => ?_
  refine avoids_bind_lift (spares_nodeEncode node) fun encoded _ => ?_
  dsimp only
  split
  · exact avoids_bind (avoids_modify _ s) fun _ t _ => avoids_pure reference t
  · exact avoids_pure reference s

theorem createBranchLeaf_avoids (path : NibblePath) (value : PyObj) (branches : List PyObj)
    (s : MerklePatriciaTrie) :
    Avoids IsKeyError (createBranchLeaf (keccakScheme keccak.hash) path value branches) s := by
  unfold createBranchLeaf
  split
  · refine avoids_bind_lift (spares_atIndex path 0) fun idx _ => ?_
    refine avoids_bind (storeNode_avoids keccak _ s) fun r t _ => ?_
    exact avoids_lift (spares_setEntry branches idx _) t
  · exact avoids_pure branches s

theorem createBranchExtension_avoids (path : NibblePath) (nextRef : PyObj) (branches : List PyObj)
    (s : MerklePatriciaTrie) :
    Avoids IsKeyError (createBranchExtension (keccakScheme keccak.hash) path nextRef branches) s := by
  unfold createBranchExtension
  split
  · exact avoids_raise id s
  · split
    · refine avoids_bind_lift (spares_atIndex path 0) fun idx _ => ?_
      exact avoids_lift (spares_setEntry branches idx nextRef) s
    · refine avoids_bind_lift (spares_atIndex path 0) fun idx _ => ?_
      refine avoids_bind (storeNode_avoids keccak _ s) fun r t _ => ?_
      exact avoids_lift (spares_setEntry branches idx _) t

theorem storeAbove_avoids (path : NibblePath) (r : Bytes) (s : MerklePatriciaTrie) :
    Avoids IsKeyError (storeAbove (keccakScheme keccak.hash) path r) s := by
  unfold storeAbove
  split
  · exact storeNode_avoids keccak _ s
  · exact avoids_pure r s

theorem updateLeaf_avoids (nodePath : NibblePath) (data : PyObj) (path : NibblePath)
    (value : Bytes) (s : MerklePatriciaTrie) :
    Avoids IsKeyError (updateLeaf (keccakScheme keccak.hash) nodePath data path value) s := by
  unfold updateLeaf
  split
  · exact storeNode_avoids keccak _ s
  · refine avoids_bind ?_ fun r t _ => storeAbove_avoids keccak _ r t
    unfold createBranchNode
    split
    · exact avoids_raise id s
    · refine avoids_bind (createBranchLeaf_avoids keccak _ _ _ s) fun branches t _ => ?_
      refine avoids_bind (createBranchLeaf_avoids keccak _ _ _ t) fun branches u _ => ?_
      exact storeNode_avoids keccak _ u

theorem updateExtension_avoids {next : PyObj → NibblePath → TrieEffect Bytes} {nextRef : PyObj}
    {s : MerklePatriciaTrie} (below : ∀ path, Avoids IsKeyError (next nextRef path) s)
    (nodePath path : NibblePath) (value : Bytes) :
    Avoids IsKeyError
      (updateExtension (keccakScheme keccak.hash) next nodePath nextRef path value) s := by
  unfold updateExtension
  split
  · exact avoids_bind (below _) fun r t _ => storeNode_avoids keccak _ t
  · refine avoids_bind (createBranchLeaf_avoids keccak _ _ _ s) fun branches t _ => ?_
    refine avoids_bind (createBranchExtension_avoids keccak _ _ _ t) fun branches u _ => ?_
    refine avoids_bind (storeNode_avoids keccak _ u) fun r v _ => ?_
    exact storeAbove_avoids keccak _ r v

theorem updateBranch_avoids {next : PyObj → NibblePath → TrieEffect Bytes} {branches : List PyObj}
    {s : MerklePatriciaTrie}
    (below : ∀ child ∈ branches, ∀ path, Avoids IsKeyError (next child path) s) (data : PyObj)
    (path : NibblePath) (value : Bytes) :
    Avoids IsKeyError (updateBranch (keccakScheme keccak.hash) next branches data path value) s := by
  unfold updateBranch
  split
  · exact storeNode_avoids keccak _ s
  · refine avoids_bind_lift (spares_atIndex path 0) fun idx _ => ?_
    refine avoids_bind_lift (spares_entry branches idx) fun child held => ?_
    refine avoids_bind (below child (entry_member held) _) fun r t _ => ?_
    exact storeNode_avoids keccak _ t

/-- Where every reference met can be loaded, no update raises a KeyError. -/
theorem update_avoids {t : MerklePatriciaTrie}
    (resolves : ∀ r, Met (keccakScheme keccak.hash) t r → r ≠ [] →
      ∃ node, getNode (keccakScheme keccak.hash) t.disk.db (.bytes r) = .ok node ∧ WellKept node)
    (depth : Nat) {r : Bytes} (met : Met (keccakScheme keccak.hash) t r) (path : NibblePath)
    (value : Bytes) :
    Avoids IsKeyError (update (keccakScheme keccak.hash) depth (.bytes r) path value) t := by
  induction depth generalizing r path with
  | zero => exact avoids_raise id t
  | succ depth ih =>
    unfold update
    split
    · exact storeNode_avoids keccak _ t
    · rename_i held
      have some : r ≠ [] := by
        rintro rfl
        exact held rfl
      obtain ⟨node, loaded, kept⟩ := resolves r met some
      refine avoids_bind_reads loaded ?_
      cases kept with
      | leaf hex => exact updateLeaf_avoids keccak _ _ path value t
      | extension hex link =>
        exact updateExtension_avoids keccak (fun rest => ih (.next met loaded .extension) rest) _
          path value
      | branch slots =>
        refine updateBranch_avoids keccak (fun child member rest => ?_) _ path value
        obtain ⟨r', rfl, _⟩ := slots.2 child member
        exact ih (.next met loaded (.branch member)) rest

end Updates

/- Every trie that the program can hold. -/
section Reached
variable {keccak : Keccak} {secure : Bool} {t : MerklePatriciaTrie}

theorem met_held (living : Living t) {r : Bytes} (met : Met (keccakScheme keccak.hash) t r) :
    Held t.disk.db r := by
  induction met with
  | root held => exact living.refHeld _ held
  | next _ loaded leads _ => exact (getNode_anchored keccak living loaded).held _ leads

theorem digest_resolves (living : Living t) {r : Bytes}
    (met : Met (keccakScheme keccak.hash) t r) (whole : r.length = 32) :
    ∃ node, getNode (keccakScheme keccak.hash) t.disk.db (.bytes r) = .ok node ∧
      WellKept node := by
  obtain ⟨e, member⟩ := met_held living met whole
  obtain ⟨data, found⟩ := get_some member
  obtain ⟨node, decoded, kept⟩ := nodeBytes_decode (living.nodes _ (get_member found))
  exact ⟨node, by simp only [getNode, found, keccakScheme_decode, decoded], kept⟩

theorem built_digests (built : Built keccak secure t) : ∀ p ∈ t.disk.db.puts, p.1.length = 32 := by
  intro p member
  rw [built_addressed keccak built p member]
  exact keccak.size p.2

theorem insert_avoids (built : Built keccak secure t)
    (whole : ∀ r, Met (keccakScheme keccak.hash) t r → r = [] ∨ r.length = 32)
    (key value : Bytes) :
    Avoids IsKeyError (MerkleTrees.insert (keccakScheme keccak.hash) secure key value) t := by
  obtain ⟨path, parsed, _, _⟩ := ofBytes_hex (if secure then keccak.hash key else key) 0
  have keyed : keyPath (keccakScheme keccak.hash) secure key = .ok path := parsed
  have living := built_living built
  have resolves (r : Bytes) (met : Met (keccakScheme keccak.hash) t r) (some : r ≠ []) :=
    digest_resolves living met ((whole r met).resolve_left some)
  unfold MerkleTrees.insert
  refine avoids_bind_lift (by rw [keyed]; exact spares_ok path) fun path _ => ?_
  refine avoids_bind_reads rfl ?_
  have updated : Avoids IsKeyError (update (keccakScheme keccak.hash) (path.len + 1)
      (asReference t.rootRef) path value) t := by
    cases root : t.rootRef with
    | none =>
      unfold update
      exact storeNode_avoids keccak _ t
    | some r => exact update_avoids keccak resolves _ (.root root) path value
  refine avoids_bind updated fun r u _ => ?_
  refine avoids_bind (avoids_modify _ u) fun _ v _ => ?_
  refine avoids_bind (avoids_modify _ v) fun _ w _ => ?_
  exact avoids_bind (avoids_modify _ w) fun _ x _ => avoids_modify _ x

/-- A node is loaded as it was stored exactly if its encoding is not a short
    one. A trie can be walked and changed exactly if no reference in it is. -/
theorem stored_loads_iff (built : Built keccak secure t) :
    (∀ node, EncodableNode node → ∃ e r u, node.encode = .ok e ∧
      storeNode (keccakScheme keccak.hash) node t = (.ok r, u) ∧
        ((∃ again, getNode (keccakScheme keccak.hash) u.disk.db (.bytes r) = .ok again ∧
          Alike node again) ↔ 32 ≤ e.length)) ∧
    (((∀ r, Met (keccakScheme keccak.hash) t r → r ≠ [] →
        ∃ node, getNode (keccakScheme keccak.hash) t.disk.db (.bytes r) = .ok node) ∧
      ∀ key value message,
        (MerkleTrees.insert (keccakScheme keccak.hash) secure key value t).1 ≠
          .error (.keyError message)) ↔
      ∀ r, Met (keccakScheme keccak.hash) t r → r = [] ∨ r.length = 32) := by
  have digests := built_digests built
  refine ⟨fun node encodable => store_load_iff keccak digests encodable, ?_, ?_⟩
  · rintro ⟨resolves, _⟩ r met
    by_cases none : r = []
    · exact Or.inl none
    · obtain ⟨node, loaded⟩ := resolves r met none
      obtain ⟨e, member⟩ := loaded_member loaded
      exact Or.inr (digests _ member)
  · intro whole
    constructor
    · intro r met some
      obtain ⟨node, loaded, _⟩ :=
        digest_resolves (built_living built) met ((whole r met).resolve_left some)
      exact ⟨node, loaded⟩
    · intro key value message raised
      exact insert_avoids built whole key value _ raised trivial

end Reached

/-- A trie of two keys. -/
def loadedTrie : MerklePatriciaTrie :=
  (MerkleTrees.insert (keccakScheme spreadKeccak.hash) false (sampleBytes 108) (sampleBytes 98)
    (MerkleTrees.insert (keccakScheme spreadKeccak.hash) false (sampleBytes 107) (sampleBytes 97)
      emptyTrie).2).2

theorem stored_loads_sample :
    (∃ e r u, Node.encode (.leaf ⟨16, [1, 2], 0, by decide⟩ (.bytes [1])) = .ok e ∧
      storeNode (keccakScheme spreadKeccak.hash) (.leaf ⟨16, [1, 2], 0, by decide⟩ (.bytes [1]))
        loadedTrie = (.ok r, u) ∧
      ((∃ again, getNode (keccakScheme spreadKeccak.hash) u.disk.db (.bytes r) = .ok again ∧
        Alike (.leaf ⟨16, [1, 2], 0, by decide⟩ (.bytes [1])) again) ↔ 32 ≤ e.length)) ∧
    (((∀ r, Met (keccakScheme spreadKeccak.hash) loadedTrie r → r ≠ [] →
        ∃ node, getNode (keccakScheme spreadKeccak.hash) loadedTrie.disk.db (.bytes r) = .ok node) ∧
      ∀ key value message,
        (MerkleTrees.insert (keccakScheme spreadKeccak.hash) false key value loadedTrie).1 ≠
          .error (.keyError message)) ↔
      ∀ r, Met (keccakScheme spreadKeccak.hash) loadedTrie r → r = [] ∨ r.length = 32) :=
  have built : Built spreadKeccak false loadedTrie := .insert (.insert .empty _ _) _ _
  ⟨(stored_loads_iff built).1 _ ⟨rfl, by decide, ⟨[1], by decide⟩, rfl⟩, (stored_loads_iff built).2⟩

/-- A leaf of five bytes is stored and not found again, neither by itself nor by
    the second insert into a trie that it is the root of. -/
theorem short_node_lost :
    let scheme := keccakScheme sampleKeccak.hash
    let t := (MerkleTrees.insert scheme false [0x12] [1] emptyTrie).2
    EncodableNode (.leaf ⟨16, [1, 2], 0, by decide⟩ (.bytes [1])) ∧
    (storeNode scheme (.leaf ⟨16, [1, 2], 0, by decide⟩ (.bytes [1])) emptyTrie).1 =
      .ok [0xc4, 0x82, 0x20, 0x12, 1] ∧
    (∀ again, getNode scheme
      (storeNode scheme (.leaf ⟨16, [1, 2], 0, by decide⟩ (.bytes [1])) emptyTrie).2.disk.db
      (.bytes [0xc4, 0x82, 0x20, 0x12, 1]) ≠ .ok again) ∧
    Built sampleKeccak false t ∧ t.rootRef = some [0xc4, 0x82, 0x20, 0x12, 1] ∧
    (MerkleTrees.insert scheme false [0x34] [2] t).1 =
      .error (.keyError "Node not found: c482201201") := by
  intro scheme t
  refine ⟨⟨rfl, by decide, ⟨[1], by decide⟩, rfl⟩, by decide, ?_, .insert .empty _ _, by decide,
    by decide⟩
  intro again found
  cases found

end MerkleLoading
