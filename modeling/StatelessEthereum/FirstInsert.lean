import StatelessEthereum.VerkleRuns

/- The first insert into a tree, object by object, for a value of any length:
   what its three nodes are committed to, and what get then answers
   (tree/verkle_tree.py). -/
namespace FirstInsert
open PythonError BigEndian StateEffect PutLog DiskLog VerkleSerialization
open VerkleTrees hiding insert get
open StemTree hiding insert lookup
open VerkleStorage VerkleKey VerkleRefinement VerkleRuns
variable {Point : Type}

section Lone
variable {scheme : Scheme Point}

def onlyChild (i : Fin scheme.width) (ref : Word) : Fin scheme.width → Option Word := single i ref

/-- A tree of three objects: the root, and a suffix node below an extension. -/
def chain (effects : List DiskEffect) (root suffix extension : TreeNode Point)
    (rootRef : Option Bytes) : VerkleTree Point :=
  ⟨⟨effects⟩, ⟨[root, suffix, extension]⟩, some 0, rootRef⟩

/-- The tree of a first insert, from what its nodes are committed to and stored as. -/
def loneTree (i : Fin scheme.width) (stem : List (Fin scheme.width)) (x : Fin scheme.width)
    (value : Bytes) (p q r : Point) (suffixBytes extensionBytes rootBytes : Bytes) :
    VerkleTree Point :=
  chain [.writeRoot (pointRef scheme r).bytes, .truncateRoot,
      .put (pointRef scheme r).bytes rootBytes, .put (pointRef scheme q).bytes extensionBytes,
      .put (pointRef scheme p).bytes suffixBytes]
    (arrayNode scheme .internal (onlyChild i (pointRef scheme q)) r)
    (arrayNode scheme .suffix (single x value) p) (extensionNode scheme stem (pointRef scheme p) q)
    (some (pointRef scheme r).bytes)

section Settling
variable (lawful : Lawful scheme) {i x : Fin scheme.width} {k : List (Fin scheme.width)}
  {value suffixBytes extensionBytes rootBytes : Bytes} {p q r : Point}
include lawful

theorem settle_suffix (committed : scheme.commit (childValues (childList (single x value))) = .ok p)
    (coded : scheme.serializeArrayNode PREFIX_SUFFIX p (childList (single x value)) =
      .ok suffixBytes) :
    settle scheme ⟨some (2, .child), 1⟩ (chain [] (newNode scheme.width .internal)
        (newSuffix x value) (newExtension k) none) =
      (.ok (), chain [.put (pointRef scheme p).bytes suffixBytes] (newNode scheme.width .internal)
        (arrayNode scheme .suffix (single x value) p)
        { newExtension k with child := some (pointRef scheme p).bytes } none) :=
  @settle_run _ _ lawful (chain [] (newNode scheme.width .internal) (newSuffix x value)
    (newExtension k) none) ⟨some (2, .child), 1⟩ _ _ committed coded

theorem settle_below_root {effects : List DiskEffect} {suffix : TreeNode Point}
    (committed : scheme.commitExtension (k.map Fin.val) (some (pointRef scheme p).bytes) = .ok q)
    (coded : encodeNode scheme (extensionNode scheme k (pointRef scheme p) q) q =
      .ok extensionBytes) :
    settle scheme ⟨some (0, .index i.val), 2⟩ (chain effects (newNode scheme.width .internal)
        suffix { newExtension k with child := some (pointRef scheme p).bytes } none) =
      (.ok (), chain (.put (pointRef scheme q).bytes extensionBytes :: effects)
        { newNode scheme.width .internal with
          children := childList (onlyChild i (pointRef scheme q)) }
        suffix (extensionNode scheme k (pointRef scheme p) q) none) := by
  have run := @settle_run _ _ lawful (chain effects (newNode scheme.width .internal)
    suffix { newExtension k with child := some (pointRef scheme p).bytes } none)
    ⟨some (0, .index i.val), 2⟩ _ _ committed coded
  have set (t : VerkleTree Point) : lift (setEntry (List.replicate scheme.width none) i.val
      (pointRef scheme q).bytes) t = (.ok (childList (onlyChild i (pointRef scheme q))), t) := by
    rw [lift_run, ← entry_word, childList_single]
    rfl
  exact run.trans ((bind_ok (readNode_run 0 _)).trans ((bind_ok (set _)).trans rfl))

theorem settle_top {effects : List DiskEffect} {suffix extension : TreeNode Point}
    {f : Fin scheme.width → Option Word}
    (committed : scheme.commit (childValues (childList f)) = .ok r)
    (coded : scheme.serializeArrayNode PREFIX_INTERNAL r (childList f) = .ok rootBytes) :
    settle scheme ⟨none, 0⟩ (chain effects
        { newNode scheme.width .internal with children := childList f } suffix extension none) =
      (.ok (), chain (.put (pointRef scheme r).bytes rootBytes :: effects)
        (arrayNode scheme .internal f r) suffix extension none) :=
  @settle_run _ _ lawful (chain effects
    { newNode scheme.width .internal with children := childList f } suffix extension none)
    ⟨none, 0⟩ _ _ committed coded

end Settling

theorem lone_insert {bits : Nat} [NeZero scheme.width] (lawful : Lawful scheme)
    (cuts : Cuts scheme.width bits) {key : Word} {i x : Fin scheme.width} {k : List (Fin scheme.width)}
    (stem : stemOf scheme.width key = i :: k) (suffix : suffixOf scheme.width key = x)
    {value suffixBytes extensionBytes rootBytes : Bytes} {p q r : Point}
    (suffixCommitted : scheme.commit (childValues (childList (single x value))) = .ok p)
    (suffixCoded : scheme.serializeArrayNode PREFIX_SUFFIX p (childList (single x value)) =
      .ok suffixBytes)
    (extensionCommitted : scheme.commitExtension (k.map Fin.val) (some (pointRef scheme p).bytes) =
      .ok q)
    (extensionCoded : encodeNode scheme (extensionNode scheme k (pointRef scheme p) q) q =
      .ok extensionBytes)
    (rootCommitted : scheme.commit (childValues (childList (onlyChild i (pointRef scheme q)))) =
      .ok r)
    (rootCoded : scheme.serializeArrayNode PREFIX_INTERNAL r
      (childList (onlyChild i (pointRef scheme q))) = .ok rootBytes) :
    VerkleTrees.insert scheme key.bytes value emptyTree =
      (.ok (), loneTree i k x value p q r suffixBytes extensionBytes rootBytes) := by
  have made : ensureRoot scheme (emptyTree : VerkleTree Point) =
      (.ok 0, { emptyTree.grow (newNode scheme.width .internal) with root := some 0 }) := rfl
  have shows : Shows scheme ({ emptyTree.grow (newNode scheme.width .internal) with
      root := some 0 } : VerkleTree Point) 0 (bare : Fin scheme.width → Trie scheme.width Bytes) :=
    ⟨Nat.zero_lt_one, rfl, by rw [refs_bare, childList_bare]; rfl, fun _ => trivial⟩
  have down : descend scheme x.val value ((i :: k).map Fin.val) 0 [⟨none, 0⟩]
      { emptyTree.grow (newNode scheme.width .internal) with root := some 0 } =
        (.ok [⟨some (2, .child), 1⟩, ⟨some (0, .index i.val), 2⟩, ⟨none, 0⟩],
          chain [] (newNode scheme.width .internal) (newSuffix x value) (newExtension k) none) :=
    (descend_none shows (i := i) rfl k x.val value [⟨none, 0⟩]).trans
      (addGroup_run _ 0 i.val k x value _)
  have up := (forEach_cons (settle_suffix lawful (k := k) suffixCommitted suffixCoded)
      [⟨some (0, .index i.val), 2⟩, ⟨none, 0⟩]).trans
    ((forEach_cons (settle_below_root lawful (i := i) extensionCommitted extensionCoded)
      [⟨none, 0⟩]).trans (forEach_cons (settle_top lawful rootCommitted rootCoded) []))
  unfold VerkleTrees.insert
  rw [bind_ok (by rw [lift_run, splitKey_ok cuts key, stem, suffix])]
  simp only
  rw [bind_ok made, bind_ok down, bind_ok up]
  rfl

/-- References of the nodes that differ keep the database consistent. -/
theorem lone_consistent {i x : Fin scheme.width} {k : List (Fin scheme.width)}
    {value suffixBytes extensionBytes rootBytes : Bytes} {p q r : Point}
    (pq : (pointRef scheme p).bytes ≠ (pointRef scheme q).bytes)
    (pr : (pointRef scheme p).bytes ≠ (pointRef scheme r).bytes)
    (qr : (pointRef scheme q).bytes ≠ (pointRef scheme r).bytes) :
    (loneTree i k x value p q r suffixBytes extensionBytes rootBytes).disk.db.Consistent := by
  rw [consistent_iff]
  intro a inside b inside'
  simp only [loneTree, chain, Disk.db, List.filterMap, DiskEffect.asPut, List.mem_cons,
    List.not_mem_nil, or_false] at inside inside'
  rcases inside with rfl | rfl | rfl <;> rcases inside' with rfl | rfl | rfl <;>
    simp [pq, pr, qr, pq.symm, pr.symm, qr.symm]

/-- The answer is what the suffix node is read back as. -/
theorem lone_get {bits : Nat} [NeZero scheme.width] (lawful : Lawful scheme)
    (cuts : Cuts scheme.width bits) (narrow : scheme.width ≤ 256) {key : Word}
    {i x : Fin scheme.width} {k : List (Fin scheme.width)}
    (stem : stemOf scheme.width key = i :: k) (suffix : suffixOf scheme.width key = x)
    {value kept suffixBytes extensionBytes rootBytes : Bytes} {p q r : Point}
    (suffixRead : scheme.deserializeAnyNode suffixBytes =
      .ok (.array PREFIX_SUFFIX p (childList (single x kept))))
    (extensionRead : scheme.deserializeAnyNode extensionBytes =
      .ok (.extension q (stemBytes k) (pointRef scheme p).bytes))
    (valid : (loneTree i k x value p q r suffixBytes extensionBytes
      rootBytes).disk.db.Consistent) :
    VerkleTrees.get scheme (loneTree i k x value p q r suffixBytes extensionBytes rootBytes)
      key.bytes = .ok (some (ofBytes kept)) := by
  let t := loneTree i k x value p q r suffixBytes extensionBytes rootBytes
  have suffixLoads : makeTreeNode scheme t.disk.db (some (pointRef scheme p).bytes) =
      .ok (arrayNode scheme .suffix (single x kept) p) := by
    rw [makeTreeNode_holds valid ⟨suffixBytes, by simp [loneTree, chain, Disk.db, DiskEffect.asPut],
      suffixRead⟩, ofAnyNode, nodeValue_ok lawful]
    rfl
  have extensionLoads : makeTreeNode scheme t.disk.db (some (pointRef scheme q).bytes) =
      .ok (extensionNode scheme k (pointRef scheme p) q) := by
    rw [makeTreeNode_holds valid ⟨extensionBytes,
      by simp [loneTree, chain, Disk.db, DiskEffect.asPut], extensionRead⟩, ofAnyNode,
      nodeValue_ok lawful, stemBytes_toNat (narrow_stem narrow k)]
    rfl
  have enough : (i :: k).length + 2 ≤ walkLimit t.disk.db ((i :: k).map Fin.val) :=
    walkLimit_enough t.disk.db
  obtain ⟨limit, steps⟩ := Nat.exists_eq_add_of_le enough
  have walk : walkLimit t.disk.db ((i :: k).map Fin.val) = k.length + limit + 3 := by
    rw [steps, List.length_cons]
    omega
  have child : entry (childList (onlyChild i (pointRef scheme q))) i.val =
      .ok (some (pointRef scheme q).bytes) := by
    have found := childList_get (onlyChild i (pointRef scheme q)) i
    simpa [onlyChild, single] using found
  have slot : entry (childList (single x kept)) x.val = .ok (some kept) := by
    have found := childList_get (single x kept) x
    simpa [single] using found
  rw [VerkleTrees.get, splitKey_ok cuts key, stem, suffix]
  change getFrom scheme t.disk.db x.val (walkLimit t.disk.db ((i :: k).map Fin.val))
    (arrayNode scheme .internal (onlyChild i (pointRef scheme q)) r) ((i :: k).map Fin.val) = _
  rw [walk]
  simp only [getFrom, arrayNode, List.map_cons, child, bind, Except.bind, extensionLoads,
    extensionNode, ↓reduceIte, suffixLoads, slot, Option.map_some]

theorem first_insert {bits : Nat} [NeZero scheme.width] (lawful : Lawful scheme)
    (cuts : Cuts scheme.width bits) (narrow : scheme.width ≤ 256) {key : Word} {value kept : Bytes}
    {i x : Fin scheme.width} {k : List (Fin scheme.width)}
    (stem : stemOf scheme.width key = i :: k) (suffix : suffixOf scheme.width key = x)
    (stored : ∀ p, ∃ encoded,
      scheme.serializeArrayNode PREFIX_SUFFIX p (childList (single x value)) = .ok encoded ∧
        scheme.deserializeAnyNode encoded = .ok (.array PREFIX_SUFFIX p (childList (single x kept)))) :
    ∃ p q r t, scheme.commit (childValues (childList (single x value))) = .ok p ∧
      scheme.commitExtension (k.map Fin.val) (some (pointRef scheme p).bytes) = .ok q ∧
      scheme.commit (childValues (childList (onlyChild i (pointRef scheme q)))) = .ok r ∧
      VerkleTrees.insert scheme key.bytes value emptyTree = (.ok (), t) ∧
      ((pointRef scheme p).bytes ≠ (pointRef scheme q).bytes →
        (pointRef scheme p).bytes ≠ (pointRef scheme r).bytes →
        (pointRef scheme q).bytes ≠ (pointRef scheme r).bytes → t.disk.db.Consistent) ∧
      (t.disk.db.Consistent → VerkleTrees.get scheme t key.bytes = .ok (some (ofBytes kept))) := by
  obtain ⟨p, committed⟩ := lawful.commits (childValues (childList (single x value)))
    (by simp [childValues])
  obtain ⟨q, committed'⟩ := lawful.commitsExtension (k.map Fin.val)
    (some (pointRef scheme p).bytes) (narrow_chunks (narrow_stem narrow k))
  obtain ⟨r, committed''⟩ := lawful.commits
    (childValues (childList (onlyChild i (pointRef scheme q)))) (by simp [childValues])
  obtain ⟨suffixBytes, coded, suffixRead⟩ := stored p
  have deep := stemOf_length cuts key
  have few := Nat.div_le_self 256 scheme.width.log2
  rw [stem, List.length_cons, depth] at deep
  have typed : (extensionNode scheme k (pointRef scheme p) q).type = .extension := rfl
  obtain ⟨extensionBytes, coded', extensionRead⟩ := encode_extension lawful typed (by omega)
    (narrow_stem narrow k) rfl rfl q
  obtain ⟨rootBytes, coded'', _⟩ := lawful.array_lossless PREFIX_INTERNAL r
    (childList (onlyChild i (pointRef scheme q))) (Or.inl rfl) (childList_length _)
    (childList_words _)
  exact ⟨p, q, r, loneTree i k x value p q r suffixBytes extensionBytes rootBytes, committed,
    committed', committed'', lone_insert lawful cuts stem suffix committed coded committed' coded'
      committed'' coded'', lone_consistent,
    lone_get lawful cuts narrow stem suffix suffixRead extensionRead⟩

end Lone

theorem single_readable {width : Nat} (x : Fin width) {v : Bytes} (short : v.length ≤ 32) :
    Readable (childList (single x v)) := by
  have only {i : Fin width} {w : Bytes} (held : single x v i = some w) : i = x ∧ w = v := by
    by_cases here : i = x
    · subst here
      simpa [single, eq_comm] using held
    · simp [single, here] at held
  refine childList_readable ?_ ?_
  · intro i w held
    rwa [(only held).2]
  · intro i j w u before held held'
    rw [(only held).1, (only held').1] at before
    exact absurd before (lt_irrefl x)

end FirstInsert
