import StatelessEthereum.VerkleOptimized

/- The optimized multiproof of the Verkle tree (prover/verkle_multiproof_optimized.py
   and its verifier). The prover walks by `children` alone, along all chunks of a
   key but the last, and opens every node of its walk at the chunk of its level. -/
namespace OptimizedMultiproof
open PythonError BigEndian PutLog PolyUtils KzgSetup KzgScheme CommitmentScheme HashScheme Interning
open VerkleOpenings VerkleCompleteness
open VerkleProof (arrayValues generateWitness)
open VerkleVerification (cofactorPoint checkWitness)
open VerkleTrees hiding insert get
open VerkleSerialization
open StemTree hiding insert lookup
open VerkleStorage VerkleKey VerkleRuns
variable {Point G1 G2 FQ12 : Type}

structure UniqueCommitment (Point : Type) where
  commitment : Point
  childValues : List Int
  level : Nat

/-- `comm_key` -/
def UniqueCommitment.key (u : UniqueCommitment Point) : Nat × Point := (u.level, u.commitment)

structure LevelOpening where
  commitmentIdx : Nat
  openingIdx : Nat
  value : Nat
  level : Nat

structure ProofDict (Point : Type) where
  keys : List String
  values : List String
  rootCommitment : Point
  uniqueCommitments : List (UniqueCommitment Point)
  openings : List LevelOpening
  keyPaths : List (List Nat)
  witness : Point
  numOpenings : Nat

abbrev CommitmentMap (Point : Type) := Table (UniqueCommitment Point) (Nat × Point)

section Prover
variable (backend : Backend Point G1 G2 FQ12) (setup : SetupObject G1 G2)

/-- The first loop over the levels of a key: the nodes below the first one. -/
def walkPath (db : Store Bytes Bytes) :
    TreeNode Point → List Nat → Except PyError (List (TreeNode Point))
  | _, [] => .ok []
  | node, idx :: rest => do
    let childData ← entry node.children idx
    let childNode ← makeTreeNode (kzgScheme backend setup) db childData
    let below ← walkPath db childNode rest
    .ok (childNode :: below)

def commitmentOf (node : TreeNode Point) : Except PyError Point :=
  match node.commitmentToChildren with
  | none => .error (.typeError "")
  | some p => .ok p

variable [DecidableEq Point]

/-- The second loop, over a node for each index of the path: the map of the
    commitments, the openings, and the value that is read at the last level. -/
def openLevels : Nat → List (TreeNode Point) → List Nat → CommitmentMap Point →
    Except PyError (CommitmentMap Point × List LevelOpening × List Bytes)
  | level, node :: nodes, idx :: rest, commitmentMap => do
    let currentCommitment ← commitmentOf node
    let (commitmentMap, commIdx) := intern UniqueCommitment.key commitmentMap
      ⟨currentCommitment, arrayValues node.children, level⟩
    match rest with
    | _ :: _ => do
      let nextCommitment ← match nodes with
        | next :: _ => commitmentOf next
        | [] => .error .indexError
      let leafValue := backend.format.hashPointToField nextCommitment setup.modulus
      let (commitmentMap, openings, value) ← openLevels (level + 1) nodes rest commitmentMap
      .ok (commitmentMap, ⟨commIdx, idx, leafValue, level⟩ :: openings, value)
    | [] => do
      let child ← entry node.children idx
      let value := child.getD []
      .ok (commitmentMap, [⟨commIdx, idx, ofBytes value, level⟩], [value])
  | _, _, _, commitmentMap => .ok (commitmentMap, [], [])

def openKeys (db : Store Bytes Bytes) (root : TreeNode Point) :
    List (List Nat) → CommitmentMap Point →
      Except PyError (CommitmentMap Point × List LevelOpening × List Bytes)
  | [], commitmentMap => .ok (commitmentMap, [], [])
  | path :: paths, commitmentMap => do
    let below ← walkPath backend setup db root path.dropLast
    let (commitmentMap, openings, value) ← openLevels backend setup 0 (root :: below) path
      commitmentMap
    let (commitmentMap, more, values) ← openKeys db root paths commitmentMap
    .ok (commitmentMap, openings ++ more, value ++ values)

omit [DecidableEq Point] in
def addOpening (uniqueCommitments : List (UniqueCommitment Point)) (r : Nat)
    (state : List Int × Nat) (opening : LevelOpening) : Except PyError (List Int × Nat) :=
  match uniqueCommitments[opening.commitmentIdx]? with
  | none => .error .indexError
  | some commData => do
    let PoverQ ← generateQuotient setup.toTables commData.childValues opening.openingIdx
    if PoverQ.length < state.1.length then .error .indexError
    else .ok (List.zipWith (fun t q => (t + q * state.2) % CURVE_ORDER) state.1 PoverQ,
      state.2 * r % CURVE_ORDER)

def generateProof (tree : VerkleTree Point) (keys : List Bytes) :
    Except PyError (ProofDict Point × Point) :=
  match rootNode tree with
  | none => .error .attributeError
  | some root => do
    let keyPaths ← keys.mapM (keyToPath setup.width)
    match root.commitmentToChildren with
    | none => .error (.typeError "root_commitment must be a 2-tuple (x, y)")
    | some rootCommitment => do
      let rootBytes ← backend.format.generateRootBytes rootCommitment
      let r ← deriveR backend.sha256 rootBytes keyPaths CURVE_ORDER
      let (commitmentMap, openings, keyValues) ← openKeys backend setup tree.disk.db root keyPaths
        .empty
      let (total, _) ← openings.foldlM (addOpening setup commitmentMap.entries r)
        (List.replicate setup.width 0, 1)
      let witness ← generateWitness backend setup total
      .ok (⟨keys.map hex, keyValues.map hex, rootCommitment, commitmentMap.entries, openings,
        keyPaths, witness, openings.length⟩, witness)

end Prover

section Verifier
variable (backend : Backend Point G1 G2 FQ12) (setup : SetupObject G1 G2)

/-- One opening: its factor of the pairing product, and the next power. -/
def checkOpening (uniqueCommitments : List (UniqueCommitment Point)) (r : Nat)
    (state : FQ12 × Nat) (opening : LevelOpening) : Except PyError (FQ12 × Nat) :=
  match uniqueCommitments[opening.commitmentIdx]? with
  | none => .error .indexError
  | some commData => do
    let negLeafTimesG1 := backend.curve.multiply backend.curve.generator
      (((setup.modulus : Int) - opening.value) % setup.modulus).toNat
    let commMinusLeaf := backend.curve.add (backend.curve.lift commData.commitment) negLeafTimesG1
    let commMinusLeafTimesR := backend.curve.multiply commMinusLeaf state.2
    let zComm ← cofactorPoint backend setup opening.openingIdx
    .ok (backend.curve.mul state.1 (backend.curve.pairing zComm commMinusLeafTimesR),
      state.2 * r % CURVE_ORDER)

/-- Values, keys and root are taken from the proof; those given are not read. -/
def verifyProof [DecidableEq FQ12] (_values _keys : List Bytes) (_root : Point)
    (proof : ProofDict Point × Point) : Except PyError Bool := do
  let (proofDict, _) := proof
  let rootBytes ← backend.format.generateRootBytes proofDict.rootCommitment
  let r ← deriveR backend.sha256 rootBytes proofDict.keyPaths CURVE_ORDER
  let (pairingCheck, _) ← proofDict.openings.foldlM
    (checkOpening backend setup proofDict.uniqueCommitments r) (backend.curve.one, 1)
  let pairingCheck ← checkWitness backend setup proofDict.witness pairingCheck
  .ok (decide (backend.curve.finalExponentiate pairingCheck = backend.curve.one))

end Verifier

/- The walk. -/

/-- Every digit leads to another node: the group lies below all of them. -/
def Deep {width : Nat} : Trie width → List (Fin width) → Prop
  | .group _ _, [] => True
  | .inner kids, i :: k => Deep (kids i) k
  | _, _ => False

section Stations
variable (scheme : Scheme Point)

/-- An extension as the walk opens it: it has no children. -/
def bareStation (stem : List (Fin scheme.width)) (slots : Fin scheme.width → Option Word)
    (x : Fin scheme.width) : Station Point :=
  ⟨extensionPoint scheme stem (suffixRef scheme slots), .extension,
    arrayValues (List.replicate scheme.width none), x.val⟩

def bareStations : Trie scheme.width → List (Fin scheme.width) → Fin scheme.width →
    List (Station Point)
  | .empty, _, _ => []
  | .group stem slots, _, x => [bareStation scheme stem slots x]
  | .inner _, [], _ => []
  | .inner kids, i :: k, x =>
    arrayStation scheme .internal (refs scheme kids) i :: bareStations (kids i) k x

end Stations

section Walk
variable {scheme : Scheme Point}

theorem makeTreeNode_bare {db : Store Bytes Bytes} {reference : Option Bytes}
    {node : TreeNode Point} (loads : makeTreeNode scheme db reference = .ok node)
    (typed : node.type = .extension) : node.children = List.replicate scheme.width none := by
  cases reference with
  | none => cases loads
  | some r =>
    simp only [makeTreeNode] at loads
    cases held : db.get r with
    | none =>
      rw [held] at loads
      cases loads
    | some data =>
      rw [held] at loads
      obtain ⟨content, _, loads⟩ := ok_of_bind loads
      cases content with
      | array flag commitment childHashes =>
        obtain ⟨value, _, loads⟩ := ok_of_bind loads
        cases loads
        simp only at typed
        split at typed <;> cases typed
      | extension commitment stem childHash =>
        obtain ⟨value, _, loads⟩ := ok_of_bind loads
        cases loads
        rfl

theorem inner_typed {db : Store Bytes Bytes} {node : TreeNode Point}
    {kids : Fin scheme.width → Trie scheme.width}
    (object : ObjectOf scheme db node (.inner kids)) : node.type ≠ .extension := by
  cases object with
  | inner typed _ _ _ =>
    rw [typed]
    exact NodeType.noConfusion

theorem inner_entry {db : Store Bytes Bytes} {node : TreeNode Point}
    {kids : Fin scheme.width → Trie scheme.width}
    (object : ObjectOf scheme db node (.inner kids)) {i : Fin scheme.width} {p : Point}
    (named : refOf scheme (kids i) = some (pointRef scheme p)) :
    entry node.children i.val = .ok (some (pointRef scheme p).bytes) := by
  cases object with
  | inner _ children _ _ =>
    rw [children, childList_get, refs, named]
    rfl

theorem bare_entry {width : Nat} (i : Fin width) :
    entry (List.replicate width none) i.val = .ok none := by
  rw [← childList_bare (V := Word), childList_get]
  rfl

theorem bareStations_length {t : Trie scheme.width} {k : List (Fin scheme.width)}
    (deep : Deep t k) (x : Fin scheme.width) : (bareStations scheme t k x).length = k.length + 1 := by
  induction t generalizing k with
  | empty => exact deep.elim
  | group stem slots =>
    cases k with
    | nil => rfl
    | cons i k => exact deep.elim
  | inner kids ih =>
    cases k with
    | nil => exact deep.elim
    | cons i k => rw [bareStations, List.length_cons, ih i deep, List.length_cons]

/-- A stored key is deep if and only if its plain proof has a commitment for every
    chunk. -/
theorem deep_iff {t : Trie scheme.width} {k : List (Fin scheme.width)} {x : Fin scheme.width}
    (found : StemTree.lookup t k x ≠ none) :
    Deep t k ↔ (stations scheme t k x).length = k.length + 2 := by
  induction t generalizing k with
  | empty => exact absurd rfl found
  | group stem slots => cases k <;> simp [Deep, stations]
  | inner kids ih =>
    cases k with
    | nil => exact absurd rfl found
    | cons i k =>
      have below := ih i found
      rw [Deep, below, stations, List.length_cons, List.length_cons]
      omega

/-- The top of a stored tree below a node. -/
theorem written_point {db : Store Bytes Bytes} (lawful : Lawful scheme) (valid : db.Consistent)
    {t : Trie scheme.width} (occupied : t ≠ .empty) (written : Written db t) :
    ∃ p next, nodePoint scheme t = some p ∧ refOf scheme t = some (pointRef scheme p) ∧
      makeTreeNode scheme db (some (pointRef scheme p).bytes) = .ok next ∧
      next.commitmentToChildren = some p ∧ ObjectOf scheme db next t := by
  obtain ⟨ref, next, named, loads, object⟩ := written_loads lawful valid occupied written
  obtain ⟨p, point, rfl⟩ := Option.map_eq_some_iff.mp named
  have commitment := (VerkleOptimized.object_commitment object).trans point
  exact ⟨p, next, point, named, loads, commitment, object⟩

end Walk

/- What the loops leave of a walk. -/

/-- What is opened at a level: a commitment with its values, the place and the value there. -/
structure Stop (Point : Type) where
  unique : UniqueCommitment Point
  index : Nat
  value : Nat

def Stop.opening (stop : Stop Point) (commitmentIdx : Nat) : LevelOpening :=
  ⟨commitmentIdx, stop.index, stop.value, stop.unique.level⟩

structure Says (stop : Stop Point) (station : Station Point) : Prop where
  point : station.point = some stop.unique.commitment
  values : stop.unique.childValues = station.values
  index : stop.index = station.index
  leaf : (stop.value : Int) = station.leaf

/-- The level and the commitment tell the values: an internal node that is stored
    with its children, or below all of them an extension. -/
def Placed (scheme : Scheme Point) (db : Store Bytes Bytes) (last : Nat)
    (u : UniqueCommitment Point) : Prop :=
  (u.level < last ∧ ∃ children, u.childValues = arrayValues children ∧
    Holds scheme db u.commitment (.array PREFIX_INTERNAL u.commitment children)) ∨
  (u.level = last ∧ u.childValues = arrayValues (List.replicate scheme.width none))

section Recording
variable [DecidableEq Point]

def record : CommitmentMap Point → List (Stop Point) → CommitmentMap Point × List LevelOpening
  | commitmentMap, [] => (commitmentMap, [])
  | commitmentMap, stop :: rest =>
    let (commitmentMap, commIdx) := intern UniqueCommitment.key commitmentMap stop.unique
    let (commitmentMap, openings) := record commitmentMap rest
    (commitmentMap, stop.opening commIdx :: openings)

theorem record_cons (commitmentMap : CommitmentMap Point) (stop : Stop Point)
    (rest : List (Stop Point)) : record commitmentMap (stop :: rest) =
      ((record (intern UniqueCommitment.key commitmentMap stop.unique).1 rest).1,
        stop.opening (intern UniqueCommitment.key commitmentMap stop.unique).2 ::
          (record (intern UniqueCommitment.key commitmentMap stop.unique).1 rest).2) := rfl

theorem record_append (commitmentMap : CommitmentMap Point) (stops more : List (Stop Point)) :
    record commitmentMap (stops ++ more) = ((record (record commitmentMap stops).1 more).1,
      (record commitmentMap stops).2 ++ (record (record commitmentMap stops).1 more).2) := by
  induction stops generalizing commitmentMap with
  | nil => rfl
  | cons stop stops ih => rw [List.cons_append, record_cons, ih, record_cons, List.cons_append]

theorem record_interns (commitmentMap : CommitmentMap Point) (stops : List (Stop Point)) :
    (record commitmentMap stops).1 =
        (internAll UniqueCommitment.key commitmentMap (stops.map Stop.unique)).1 ∧
      (record commitmentMap stops).2.map LevelOpening.commitmentIdx =
        (internAll UniqueCommitment.key commitmentMap (stops.map Stop.unique)).2 := by
  induction stops generalizing commitmentMap with
  | nil => exact ⟨rfl, rfl⟩
  | cons stop stops ih =>
    obtain ⟨entries, positions⟩ := ih (intern UniqueCommitment.key commitmentMap stop.unique).1
    rw [record_cons, List.map_cons, List.map_cons, entries, positions]
    exact ⟨rfl, rfl⟩

omit [DecidableEq Point] in
theorem placed_unique {scheme : Scheme Point} {db : Store Bytes Bytes} (valid : db.Consistent)
    {last : Nat} {u v : UniqueCommitment Point} (placed : Placed scheme db last u)
    (placed' : Placed scheme db last v) (same : u.key = v.key) : u = v := by
  obtain ⟨commitment, values, level⟩ := u
  obtain ⟨commitment', values', level'⟩ := v
  obtain ⟨rfl, rfl⟩ := Prod.mk.inj same
  rcases placed with ⟨high, children, rfl, held⟩ | ⟨low, rfl⟩
  · rcases placed' with ⟨_, children', rfl, held'⟩ | ⟨low, rfl⟩
    · have contents := MultiproofSharing.holds_unique valid held held' rfl
      rw [AnyNode.array.injEq] at contents
      rw [contents.2.2]
    · simp only at high low
      omega
  · rcases placed' with ⟨high, _⟩ | ⟨_, rfl⟩
    · simp only at high low
      omega
    · rfl

def Resolves (uniqueCommitments : List (UniqueCommitment Point)) (o : LevelOpening)
    (stop : Stop Point) : Prop :=
  uniqueCommitments[o.commitmentIdx]? = some stop.unique ∧ o = stop.opening o.commitmentIdx

theorem record_resolves {scheme : Scheme Point} {db : Store Bytes Bytes} (valid : db.Consistent)
    {last : Nat} {stops : List (Stop Point)}
    (placed : ∀ stop ∈ stops, Placed scheme db last stop.unique) :
    List.Forall₂ (Resolves (record .empty stops).1.entries) (record .empty stops).2 stops := by
  obtain ⟨entries, positions⟩ := record_interns .empty stops
  have read := internAll_reads (stops.map Stop.unique) (sound_empty UniqueCommitment.key) (by
    intro u inside v inside' same
    obtain ⟨stop, member, rfl⟩ := List.mem_map.mp inside
    obtain ⟨stop', member', rfl⟩ := List.mem_map.mp inside'
    exact placed_unique valid (placed stop member) (placed stop' member') same)
  rw [← entries, ← positions] at read
  have shape (commitmentMap : CommitmentMap Point) (stops : List (Stop Point)) :
      List.Forall₂ (fun o stop => o = stop.opening o.commitmentIdx) (record commitmentMap stops).2
        stops := by
    induction stops generalizing commitmentMap with
    | nil => exact .nil
    | cons stop stops ih => exact .cons rfl (ih _)
  generalize (record .empty stops).1.entries = uniqueCommitments at read
  have shaped := shape .empty stops
  generalize (record .empty stops).2 = openings at read shaped
  clear entries positions placed shape
  induction shaped with
  | nil => exact .nil
  | @cons o stop openings stops here _ ih =>
    rw [List.map_cons, readAt_cons] at read
    cases first : uniqueCommitments[o.commitmentIdx]? with
    | none => simp [first] at read
    | some u =>
      cases later : readAt uniqueCommitments (openings.map LevelOpening.commitmentIdx) with
      | none => simp [first, later] at read
      | some rest =>
        simp only [first, later, List.map_cons] at read
        obtain ⟨rfl, rfl⟩ := List.cons.inj (Option.some.inj read)
        exact .cons ⟨first, here⟩ (ih later)

end Recording

/- The loops over one key. -/
section Keys
variable {backend : Backend Point G1 G2 FQ12} {setup : SetupObject G1 G2} {db : Store Bytes Bytes}

theorem bare_leaf {scheme : Scheme Point} (stem : List (Fin scheme.width))
    (slots : Fin scheme.width → Option Word) (x : Fin scheme.width) :
    (bareStation scheme stem slots x).leaf = 0 := by
  simp [bareStation, Station.leaf, arrayValues, childValues, childValue, List.getD_eq_getElem?_getD]

theorem openLevels_step [DecidableEq Point] {node next : TreeNode Point} {p q : Point}
    (commitment : node.commitmentToChildren = some p) (below : next.commitmentToChildren = some q)
    {level : Nat} {nodes : List (TreeNode Point)} {rest : List Nat} (more : rest ≠ [])
    {commitmentMap after : CommitmentMap Point} {openings : List LevelOpening} {value : List Bytes}
    (run : openLevels backend setup (level + 1) (next :: nodes) rest (intern UniqueCommitment.key
      commitmentMap ⟨p, arrayValues node.children, level⟩).1 = .ok (after, openings, value))
    (idx : Nat) :
    openLevels backend setup level (node :: next :: nodes) (idx :: rest) commitmentMap =
      .ok (after, ⟨(intern UniqueCommitment.key commitmentMap
        ⟨p, arrayValues node.children, level⟩).2, idx,
          backend.format.hashPointToField q setup.modulus, level⟩ :: openings, value) := by
  obtain ⟨c, cs, rfl⟩ := List.exists_cons_of_ne_nil more
  rw [openLevels]
  simp only [commitmentOf, commitment, below, run, bind, Except.bind]

theorem walk_opens [DecidableEq Point] (lawful : Lawful (kzgScheme backend setup))
    (valid : db.Consistent) {last : Nat} {t : Trie (kzgScheme backend setup).width}
    {k : List (Fin (kzgScheme backend setup).width)} (deep : Deep t k)
    (x : Fin (kzgScheme backend setup).width) (written : Written db t) {node : TreeNode Point}
    (object : ObjectOf (kzgScheme backend setup) db node t) (bare : node.type = .extension →
      node.children = List.replicate (kzgScheme backend setup).width none) {level : Nat}
    (size : level + k.length = last) :
    ∃ below stops, walkPath backend setup db node (k.map Fin.val) = .ok below ∧
      (∀ commitmentMap, openLevels backend setup level (node :: below) (k.map Fin.val ++ [x.val])
        commitmentMap =
          .ok ((record commitmentMap stops).1, (record commitmentMap stops).2, [[]])) ∧
      List.Forall₂ Says stops (bareStations (kzgScheme backend setup) t k x) ∧
      ∀ stop ∈ stops, Placed (kzgScheme backend setup) db last stop.unique := by
  induction t generalizing k node level with
  | empty => exact deep.elim
  | group stem slots =>
    cases k with
    | cons i k => exact deep.elim
    | nil =>
      obtain ⟨p, _, point, _⟩ := written_point lawful valid (by simp) written
      have commitment := (VerkleOptimized.object_commitment object).trans point
      cases object with
      | group typed _ _ _ _ _ =>
        have children := bare typed
        have read : entry node.children x.val = .ok none := children ▸ bare_entry x
        refine ⟨[], [⟨⟨p, arrayValues node.children, level⟩, x.val, 0⟩], rfl,
          fun commitmentMap => ?_,
          .cons ⟨point, by rw [children]; rfl, rfl, (bare_leaf stem slots x).symm⟩ .nil, ?_⟩
        · simp only [List.map_nil, List.nil_append, openLevels, commitmentOf, commitment, read, bind,
            Except.bind]
          rfl
        · intro stop member
          rw [List.mem_singleton] at member
          subst member
          exact Or.inr ⟨size, congrArg arrayValues children⟩
  | inner kids ih =>
    cases k with
    | nil => exact deep.elim
    | cons i k =>
      have gone : kids i ≠ .empty := by
        intro empty
        rw [Deep, empty] at deep
        exact deep
      obtain ⟨⟨p, point, held⟩, stored⟩ := written
      obtain ⟨q, next, point', named, loads, commitment', object'⟩ :=
        written_point lawful valid gone (stored i)
      have commitment := (VerkleOptimized.object_commitment object).trans point
      rw [List.length_cons] at size
      obtain ⟨below, stops, walk, opens, tells, placed⟩ := ih i deep (stored i) object'
        (makeTreeNode_bare loads) (show level + 1 + k.length = last by omega)
      have read := inner_entry object named
      cases object with
      | inner typed children _ _ =>
        refine ⟨next :: below, ⟨⟨p, arrayValues node.children, level⟩, i.val,
          backend.format.hashPointToField q setup.modulus⟩ :: stops, ?_, fun commitmentMap => ?_,
          .cons ⟨point, congrArg arrayValues children, rfl, ?_⟩ tells, ?_⟩
        · simp only [List.map_cons, walkPath, read, loads, walk, bind, Except.bind]
        · exact openLevels_step commitment commitment' (by simp) (opens _) i.val
        · exact (leaf_reference lawful named).symm
        · intro stop member
          rcases List.mem_cons.mp member with rfl | later
          · exact Or.inl ⟨by simp only; omega, _, congrArg arrayValues children, held⟩
          · exact placed stop later

theorem walk_deep (lawful : Lawful (kzgScheme backend setup)) (valid : db.Consistent)
    {t : Trie (kzgScheme backend setup).width} {k : List (Fin (kzgScheme backend setup).width)}
    {x : Fin (kzgScheme backend setup).width} (found : StemTree.lookup t k x ≠ none)
    (written : Written db t) {node : TreeNode Point}
    (object : ObjectOf (kzgScheme backend setup) db node t) (bare : node.type = .extension →
      node.children = List.replicate (kzgScheme backend setup).width none)
    {below : List (TreeNode Point)}
    (walk : walkPath backend setup db node (k.map Fin.val) = .ok below) : Deep t k := by
  induction t generalizing k node below with
  | empty => exact found rfl
  | group stem slots =>
    cases k with
    | nil => trivial
    | cons i k =>
      cases object with
      | group typed _ _ _ _ _ =>
        have read : entry node.children i.val = .ok none := bare typed ▸ bare_entry i
        simp only [List.map_cons, walkPath, read, makeTreeNode, bind, Except.bind] at walk
        cases walk
  | inner kids ih =>
    cases k with
    | nil => exact found rfl
    | cons i k =>
      have gone : kids i ≠ .empty := by
        intro empty
        rw [StemTree.lookup, empty] at found
        exact found rfl
      obtain ⟨_, stored⟩ := written
      obtain ⟨q, next, _, named, loads, _, object'⟩ := written_point lawful valid gone (stored i)
      simp only [List.map_cons, walkPath, inner_entry object named, loads, bind, Except.bind] at walk
      obtain ⟨rest, walk, _⟩ := ok_of_bind walk
      exact ih i found (stored i) object' (makeTreeNode_bare loads) walk

end Keys

/- The loop over the keys. -/

theorem keyToPath_chunks {width bits : Nat} (aligned : Aligned width bits) (key : Word) :
    keyToPath width key.bytes = .ok (keyChunks width key.bytes) := by
  have cuts := aligned.toCuts
  have step := bits_eq cuts
  have some := cuts.positive
  have power : 2 ^ bits = width := cuts.power.symm
  have whole := Nat.div_mul_cancel aligned.whole
  have steps : (8 * key.bytes.length + bits - 1) / bits = 256 / bits := by
    rw [key.size]
    refine Nat.div_eq_of_lt_le (by omega) ?_
    rw [Nat.succ_mul (256 / bits)]
    omega
  rw [keyToPath, if_neg (Nat.ne_of_gt (width_positive cuts))]
  simp only [step, if_neg (Nat.ne_of_gt some), steps, keyChunks]
  congr 1
  apply List.map_congr_left
  intro i member
  have index : i < 256 / bits := List.mem_range.mp member
  have place : (256 / bits - 1 - i) * bits = 256 - (i + 1) * bits := by
    rw [Nat.sub_sub, Nat.sub_mul, whole, Nat.add_comm]
  rw [place, ← Nat.and_two_pow_sub_one_eq_mod, power]

section Loop
variable {backend : Backend Point G1 G2 FQ12} {setup : SetupObject G1 G2} {k bits : Nat}
  {w : ZMod CURVE_ORDER} {tree : VerkleTree Point}
  {kids : Fin (kzgScheme backend setup).width → Trie (kzgScheme backend setup).width}
  [NeZero (kzgScheme backend setup).width]

variable (backend) in
theorem pathOf_digits (ready : Ready setup k w bits) (key : Word) : pathOf setup.width key.bytes =
    (stemOf (kzgScheme backend setup).width key).map Fin.val ++
      [(suffixOf (kzgScheme backend setup).width key).val] := by
  have aligned : Aligned (kzgScheme backend setup).width bits := ready.aligned
  have digits := keyDigits_val aligned.toCuts key
  rw [keyDigits_split aligned.toCuts, List.map_append, List.map_singleton] at digits
  have path : keyToPath setup.width key.bytes = .ok (keyChunks setup.width key.bytes) :=
    keyToPath_chunks ready.aligned key
  rw [pathOf, path, digits]
  rfl

/-- A key whose walk meets nodes with children only. -/
def KeyDeep (backend : Backend Point G1 G2 FQ12) (setup : SetupObject G1 G2)
    [NeZero (kzgScheme backend setup).width]
    (kids : Fin (kzgScheme backend setup).width → Trie (kzgScheme backend setup).width)
    (key : Word) : Prop :=
  Deep (.inner kids) (stemOf (kzgScheme backend setup).width key)

def keyBareStations (backend : Backend Point G1 G2 FQ12) (setup : SetupObject G1 G2)
    [NeZero (kzgScheme backend setup).width]
    (kids : Fin (kzgScheme backend setup).width → Trie (kzgScheme backend setup).width)
    (key : Word) : List (Station Point) :=
  bareStations (kzgScheme backend setup) (.inner kids) (stemOf (kzgScheme backend setup).width key)
    (suffixOf (kzgScheme backend setup).width key)

variable (grown : Grown backend setup k w bits tree kids)
include grown

omit [NeZero (kzgScheme backend setup).width] in
theorem grown_written : Written tree.disk.db (.inner kids) := by
  obtain ⟨id, p, standing, _, _⟩ := grown.held
  exact ⟨standing.stored, standing.shows.written⟩

variable [DecidableEq Point] {root : TreeNode Point}
  (object : ObjectOf (kzgScheme backend setup) tree.disk.db root (.inner kids))
include object

theorem openKeys_opens (keys : List Word) (deep : ∀ key ∈ keys, KeyDeep backend setup kids key) :
    ∃ stops, (∀ commitmentMap, openKeys backend setup tree.disk.db root
        (keys.map fun key => pathOf setup.width key.bytes) commitmentMap =
          .ok ((record commitmentMap stops).1, (record commitmentMap stops).2,
            keys.map fun _ => [])) ∧
      List.Forall₂ Says stops (keys.flatMap (keyBareStations backend setup kids)) ∧
      ∀ stop ∈ stops, Placed (kzgScheme backend setup) tree.disk.db
        (VerkleKey.depth (kzgScheme backend setup).width + 1) stop.unique := by
  have aligned : Aligned (kzgScheme backend setup).width bits := grown.ready.aligned
  induction keys with
  | nil => exact ⟨[], fun _ => rfl, .nil, by simp⟩
  | cons key keys ih =>
    obtain ⟨more, later, told, placed⟩ :=
      ih fun key member => deep key (List.mem_cons_of_mem _ member)
    obtain ⟨below, stops, walk, opens, tells, placed'⟩ := walk_opens
      (ready_lawful grown.faithful grown.ready) grown.valid (deep key List.mem_cons_self)
      (suffixOf (kzgScheme backend setup).width key) (grown_written grown) object
      (fun typed => absurd typed (inner_typed object)) (Nat.zero_add _)
    rw [stemOf_length aligned.toCuts] at placed'
    refine ⟨stops ++ more, fun commitmentMap => ?_, List.rel_append tells told, ?_⟩
    · rw [List.map_cons, openKeys, pathOf_digits backend grown.ready key,
        List.dropLast_concat, walk, record_append]
      simp only [opens, later, bind, Except.bind]
      rfl
    · intro stop member
      rcases List.mem_append.mp member with here | there
      · exact placed' stop here
      · exact placed stop there

/-- The loop raises unless all walks are deep. -/
theorem openKeys_deep {keys : List Word}
    (found : ∀ key ∈ keys, stored backend setup kids key ≠ none) {commitmentMap : CommitmentMap Point}
    {result : CommitmentMap Point × List LevelOpening × List Bytes}
    (run : openKeys backend setup tree.disk.db root
      (keys.map fun key => pathOf setup.width key.bytes) commitmentMap = .ok result) :
    ∀ key ∈ keys, KeyDeep backend setup kids key := by
  induction keys generalizing commitmentMap result with
  | nil => simp
  | cons key keys ih =>
    rw [List.map_cons, openKeys, pathOf_digits backend grown.ready key,
      List.dropLast_concat] at run
    obtain ⟨below, walk, run⟩ := ok_of_bind run
    obtain ⟨⟨after, openings, value⟩, _, run⟩ := ok_of_bind run
    obtain ⟨rest, later, _⟩ := ok_of_bind run
    intro other member
    rcases List.mem_cons.mp member with rfl | member
    · exact walk_deep (ready_lawful grown.faithful grown.ready) grown.valid
        (found _ List.mem_cons_self) (grown_written grown) object
        (fun typed => absurd typed (inner_typed object)) walk
    · exact ih (fun key member => found key (List.mem_cons_of_mem _ member)) later other member

end Loop

end OptimizedMultiproof
