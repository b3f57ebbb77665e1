import StatelessEthereum.Interning
import StatelessEthereum.MultiproofSharing

/- The deduplicated Verkle proof (prover/verkle_proof_optimized.py): each
   commitment once, and for each key the positions of its commitments. Its walk
   takes the bytes of a key for the chunks that the tree cuts it into. -/
namespace VerkleOptimized
open PythonError BigEndian PutLog KzgSetup KzgScheme CommitmentScheme HashScheme Interning
open VerkleOpenings MultiproofOpenings MultiproofSharing
open VerkleProof (addOpening arrayValues extensionValues openNodes generateWitness)
open VerkleTrees hiding insert get getKeyChunks
open VerkleSerialization
open StemTree hiding insert lookup
open VerkleStorage VerkleKey VerkleRuns VerkleRefinement
variable {Point G1 G2 FQ12 : Type}

structure PathInfo where
  keyIdx : Int
  commitmentIndices : List Int

structure DeduplicatedProof (Point : Type) where
  commitments : List Point
  proofPaths : List PathInfo

/-- `[commitments[j] for j in commitment_indices]` -/
def readIndices (commitments : List Point) (commitmentIndices : List Int) : Option (List Point) :=
  commitmentIndices.mapM (listIndex commitments)

def PathInfo.Leads (info : PathInfo) (commitments ps : List Point) : Prop :=
  ∃ positions : List Nat, info.commitmentIndices = positions.map Int.ofNat ∧
    readAt commitments positions = some ps

theorem leads_extends {info : PathInfo} {commitments more ps : List Point}
    (longer : commitments <+: more) (leads : info.Leads commitments ps) : info.Leads more ps := by
  obtain ⟨positions, same, read⟩ := leads
  exact ⟨positions, same, readAt_extends longer read⟩

theorem leads_read {info : PathInfo} {commitments ps : List Point}
    (leads : info.Leads commitments ps) :
    readIndices commitments info.commitmentIndices = some ps := by
  obtain ⟨positions, same, read⟩ := leads
  rw [same, readIndices, List.mapM_map, ← read, readAt]
  exact congrArg (positions.mapM ·) (funext fun i => listIndex_nat commitments i)

/-- What the loop over the nodes of a key carries: the total, the list of
    commitments with its map, and the indices of the key so far. -/
structure Progress (Point : Type) where
  total : List Int
  table : Table Point Point
  keyCommitmentIndices : List Nat

section Prover
variable [DecidableEq Point] (backend : Backend Point G1 G2 FQ12) (setup : SetupObject G1 G2)

/-- The commitment of a child gets an index, unless it has one. -/
def record (child : TreeNode Point) (state : Progress Point) : Except PyError (Progress Point) :=
  match child.commitmentToChildren with
  | none => .error (.typeError "")
  | some comm =>
    let (table, index) := intern id state.table comm
    .ok { state with table := table
                     keyCommitmentIndices := state.keyCommitmentIndices ++ [index] }

/-- How the walk goes on with what is at the place of a child. -/
def enterChild (db : Store Bytes Bytes)
    (next : TreeNode Point → Progress Point → Except PyError (Progress Point))
    (state : Progress Point) : Option Bytes → Except PyError (Progress Point)
  | none | some [] => .ok state
  | some childRef => do
    let child ← makeTreeNode (kzgScheme backend setup) db (some childRef)
    let state ← record child state
    next child state

/-- The loop over the nodes of a key. A level of more than two bytes raises, so
    no walk takes more turns than there are other levels. -/
def openWalk (db : Store Bytes Bytes) (rootBytes : Bytes) (path stem : List Nat) (suffix : Nat) :
    Nat → Nat → TreeNode Point → Progress Point → Except PyError (Progress Point)
  | 0, _, _, _ => .error .diverges
  | limit + 1, depth, node, state =>
    match node.type with
    | .internal =>
      match stem[depth]? with
      | none => .error .indexError
      | some idx => do
        let total ← addOpening backend setup rootBytes path depth (arrayValues node.children) idx
          state.total
        let child ← entry node.children idx
        enterChild backend setup db (openWalk db rootBytes path stem suffix limit (depth + 1))
          { state with total := total } child
    | .extension => do
      let stemBytes ← bytesOf node.stem
      let total ← addOpening backend setup rootBytes path depth
        (extensionValues setup.width stemBytes node.child) 2 state.total
      enterChild backend setup db (openWalk db rootBytes path stem suffix limit (depth + 1))
        { state with total := total } node.child
    | .suffix => do
      let total ← addOpening backend setup rootBytes path depth (arrayValues node.children) suffix
        state.total
      .ok { state with total := total }

/-- The body of the loop over the keys. -/
def openKey (db : Store Bytes Bytes) (rootBytes : Bytes) (root : TreeNode Point) (key : Bytes)
    (path : List Nat) (total : List Int) (table : Table Point Point) :
    Except PyError (Progress Point) :=
  match key[31]? with
  | none => .error .indexError
  | some suffix =>
    openWalk backend setup db rootBytes path ((key.take 31).map UInt8.toNat) suffix.toNat
      (256 ^ 2 + 1) 0 root ⟨total, table, []⟩

/-- The loop over the keys, numbered from `keyIdx`, each with its path. -/
def openKeys (db : Store Bytes Bytes) (rootBytes : Bytes) (root : TreeNode Point) :
    List Int → Table Point Point → Nat → List (Bytes × List Nat) →
      Except PyError (List Int × Table Point Point × List PathInfo)
  | total, table, _, [] => .ok (total, table, [])
  | total, table, keyIdx, (key, path) :: rest => do
    let state ← openKey backend setup db rootBytes root key path total table
    let (total, table, proofPaths) ← openKeys db rootBytes root state.total state.table
      (keyIdx + 1) rest
    .ok (total, table, ⟨keyIdx, state.keyCommitmentIndices.map Int.ofNat⟩ :: proofPaths)

/-- The deduplicated commitments, and the values of the one polynomial that all
    quotients are added up in. -/
def aggregate (tree : VerkleTree Point) (keys : List Bytes) :
    Except PyError (DeduplicatedProof Point × List Int) :=
  match rootNode tree with
  | none => .error .attributeError
  | some root => do
    let pathsForR ← keys.mapM (keyToPath setup.width)
    match root.commitmentToChildren with
    | none => .error (.typeError "root_commitment must be a 2-tuple (x, y)")
    | some committeeRoot => do
      let rootBytes ← backend.format.generateRootBytes committeeRoot
      let _ ← deriveR backend.sha256 rootBytes pathsForR CURVE_ORDER
      let (total, table, proofPaths) ← openKeys backend setup tree.disk.db rootBytes root
        (List.replicate setup.width 0) .empty 0 (keys.zip pathsForR)
      .ok (⟨table.entries, proofPaths⟩, total)

def generateProof (tree : VerkleTree Point) (keys : List Bytes) :
    Except PyError (DeduplicatedProof Point × Point) := do
  let (deduplicatedProof, total) ← aggregate backend setup tree keys
  let witness ← generateWitness backend setup total
  .ok (deduplicatedProof, witness)

end Prover

/- The walk beside that of the plain prover. -/

theorem object_commitment {scheme : Scheme Point} {db : Store Bytes Bytes} {node : TreeNode Point}
    {t : Trie scheme.width} (object : ObjectOf scheme db node t) :
    node.commitmentToChildren = nodePoint scheme t := by
  cases object with
  | inner _ _ commitment _ => exact commitment
  | group _ _ _ commitment _ _ => exact commitment

theorem stations_head {scheme : Scheme Point} {t : Trie scheme.width}
    {digits : List (Fin scheme.width)} (lands : Lands t digits) (x : Fin scheme.width)
    {p : Point} {ps : List Point}
    (points : (stations scheme t digits x).map Station.point = (p :: ps).map some) :
    nodePoint scheme t = some p := by
  cases t with
  | empty => exact lands.elim
  | group stem slots => exact (List.cons.inj points).1
  | inner kids =>
    cases digits with
    | nil => exact lands.elim
    | cons i digits => exact (List.cons.inj points).1

/-- The bytes that the walk takes for chunks are the chunks of the key, as far as
    its internal nodes go. -/
def Steered {width : Nat} : Trie width → List (Fin width) → List Nat → Prop
  | .inner kids, i :: k, stem => ∃ rest, stem = i.val :: rest ∧ Steered (kids i) k rest
  | _, _, _ => True

section Walk
variable [DecidableEq Point] {backend : Backend Point G1 G2 FQ12} {setup : SetupObject G1 G2}
  {k bits : Nat} {w : ZMod CURVE_ORDER}

/-- The commitments of a walk have their indices, and its openings are in the total. -/
def Progress.recorded (state : Progress Point) (ps : List Point) (total : List Int) :
    Progress Point :=
  ⟨total, (internAll id state.table ps).1,
    state.keyCommitmentIndices ++ (internAll id state.table ps).2⟩

@[simp] theorem recorded_total (state : Progress Point) (ps : List Point) (total : List Int) :
    (state.recorded ps total).total = total := rfl

theorem recorded_cons (state : Progress Point) (p : Point) (ps : List Point)
    (total total' : List Int) :
    (state.recorded [p] total).recorded ps total' = state.recorded (p :: ps) total' := by
  simp only [Progress.recorded, internAll, List.append_assoc]
  rfl

theorem enterChild_loads {db : Store Bytes Bytes}
    (next : TreeNode Point → Progress Point → Except PyError (Progress Point))
    (state : Progress Point) {ref : Word} {child : TreeNode Point}
    (loads : makeTreeNode (kzgScheme backend setup) db (some ref.bytes) = .ok child) {p : Point}
    (commitment : child.commitmentToChildren = some p) :
    enterChild backend setup db next state (some ref.bytes) =
      next child (state.recorded [p] state.total) := by
  obtain ⟨b, rest, shape⟩ := word_occupied ref
  rw [shape] at loads ⊢
  simp only [enterChild, loads, record, commitment, bind, Except.bind]
  rfl

/-- A walk that is steered by the chunks of the key opens what the plain prover
    opens, and records the commitments below its first node. -/
theorem openWalk_follows (lawful : Lawful (kzgScheme backend setup)) (ready : Ready setup k w bits)
    {db : Store Bytes Bytes} (valid : db.Consistent) (rootBytes : Bytes) (path : List Nat)
    (x : Fin (kzgScheme backend setup).width) {t : Trie (kzgScheme backend setup).width}
    {digits : List (Fin (kzgScheme backend setup).width)} (lands : Lands t digits)
    {stem : List Nat} {depth : Nat} (steered : Steered t digits (stem.drop depth))
    {node : TreeNode Point} (object : ObjectOf (kzgScheme backend setup) db node t)
    {p : Point} {ps : List Point}
    (points : (stations (kzgScheme backend setup) t digits x).map Station.point =
      (p :: ps).map some) {turns limit : Nat} (enough : ps.length < turns)
    (enough' : ps.length < limit) (state : Progress Point) :
    openWalk backend setup db rootBytes path stem x.val limit depth node state =
      (openNodes backend setup db rootBytes path x.val turns depth node (digits.map Fin.val)
        state.total).map (state.recorded ps) := by
  induction t generalizing digits depth node p ps turns limit state with
  | empty => exact lands.elim
  | group own slots =>
    cases object with
    | group typed covers holds _ stored named =>
      obtain ⟨q, point, _, loads⟩ := suffix_loads lawful valid stored named
      have bytes : bytesOf node.stem = .ok (stemBytes own) := by
        rw [covers, bytesOf_ok (narrow_chunks (narrow_stem (ready_narrow ready) own)), stemBytes,
          List.map_map]
        rfl
      have below : [q] = ps := List.map_injective_iff.mpr (Option.some_injective _)
        ((congrArg (fun o => [o]) point.symm).trans (List.cons.inj points).2)
      subst below
      obtain ⟨turns, rfl⟩ := Nat.exists_eq_add_of_le' enough
      obtain ⟨limit, rfl⟩ := Nat.exists_eq_add_of_le' enough'
      simp only [List.length_singleton, openWalk, openNodes, typed, bytes, bind, Except.bind]
      cases addOpening backend setup rootBytes path depth
          (extensionValues setup.width (stemBytes own) node.child) 2 state.total with
      | error e => rfl
      | ok total =>
        simp only [holds, enterChild_loads _ _ loads rfl, loads]
        simp only [arrayNode, Progress.recorded]
        cases addOpening backend setup rootBytes path (depth + 1) (arrayValues (childList slots))
            x.val total with
        | error e => rfl
        | ok total => rfl
  | inner kids ih =>
    cases object with
    | inner typed children _ written =>
      cases digits with
      | nil => exact lands.elim
      | cons i digits =>
        obtain ⟨rest, chunks, steered⟩ := steered
        have chunk : stem[depth]? = some i.val := by
          rw [← List.head?_drop, chunks]
          rfl
        have further : stem.drop (depth + 1) = rest := by
          rw [← List.drop_drop, chunks]
          rfl
        have gone : kids i ≠ .empty := by
          intro empty
          rw [Lands, empty] at lands
          exact lands
        obtain ⟨ref, next, named, loads, object'⟩ := written_loads lawful valid gone (written i)
        have later : (stations (kzgScheme backend setup) (kids i) digits x).map Station.point =
            ps.map some := (List.cons.inj points).2
        cases ps with
        | nil =>
          have two := lands_stations (kzgScheme backend setup) (t := kids i) lands x
          rw [List.map_eq_nil_iff.mp later] at two
          simp at two
        | cons q ps =>
          have commitment : next.commitmentToChildren = some q :=
            (object_commitment object').trans (stations_head (t := kids i) lands x later)
          obtain ⟨turns, rfl⟩ := Nat.exists_eq_add_of_le' (Nat.lt_of_le_of_lt (Nat.zero_le _) enough)
          obtain ⟨limit, rfl⟩ := Nat.exists_eq_add_of_le' (Nat.lt_of_le_of_lt (Nat.zero_le _) enough')
          have runs := ih i lands (further.symm ▸ steered) object' later
            (Nat.lt_of_succ_lt_succ enough) (Nat.lt_of_succ_lt_succ enough')
          have held : refs (kzgScheme backend setup) kids i = some ref := named
          simp only [openWalk, openNodes, typed, chunk, List.map_cons, children, childList_get, held,
            bind, Except.bind, Option.map_some, entry_word, loads]
          cases addOpening backend setup rootBytes path depth
              (arrayValues (childList (refs (kzgScheme backend setup) kids))) i.val state.total with
          | error e => rfl
          | ok total =>
            simp only [enterChild_loads _ _ loads commitment, runs, recorded_total]
            cases openNodes backend setup db rootBytes path x.val turns (depth + 1) next
                (digits.map Fin.val) total with
            | error e => rfl
            | ok total' => exact congrArg Except.ok (recorded_cons _ q ps _ total')

/-- No internal node has one subtree twice. -/
def Unrepeated {width : Nat} : Trie width → Prop
  | .inner kids =>
    (∀ i j, kids i = kids j → kids i ≠ .empty → i = j) ∧ ∀ i, Unrepeated (kids i)
  | _ => True

omit [DecidableEq Point] in
theorem addOpening_inside {rootBytes : Bytes} {path : List Nat} {level idx : Nat}
    {values total more : List Int}
    (run : addOpening backend setup rootBytes path level values idx total = .ok more) :
    idx < values.length := by
  obtain ⟨q, divided, _⟩ := ok_of_bind run
  by_contra outside
  rw [generateQuotient, List.getElem?_eq_none (Nat.not_lt.mp outside)] at divided
  cases divided

/-- A walk that returns has recorded the commitments it came by. Where these are
    the commitments of a key in a tree without repeats, it was steered by the
    chunks of the key. -/
theorem openWalk_steers (lawful : Lawful (kzgScheme backend setup)) {db : Store Bytes Bytes}
    (valid : db.Consistent) (rootBytes : Bytes) (path stem : List Nat)
    (suffix : Nat) {t : Trie (kzgScheme backend setup).width} {depth limit : Nat}
    {node : TreeNode Point} (object : ObjectOf (kzgScheme backend setup) db node t)
    {state after : Progress Point}
    (run : openWalk backend setup db rootBytes path stem suffix limit depth node state = .ok after) :
    ∃ ps total, after = state.recorded ps total ∧
      ∀ (digits : List (Fin (kzgScheme backend setup).width))
        (x : Fin (kzgScheme backend setup).width) (p : Point), Unrepeated t → Lands t digits →
        (stations (kzgScheme backend setup) t digits x).map Station.point = (p :: ps).map some →
        Steered t digits (stem.drop depth) ∧ suffix < (kzgScheme backend setup).width := by
  induction t generalizing depth limit node state with
  | empty => cases object
  | group own slots =>
    cases object with
    | group typed covers holds _ stored named =>
      obtain ⟨q, point, _, loads⟩ := suffix_loads lawful valid stored named
      cases limit with
      | zero => cases run
      | succ limit =>
        simp only [openWalk, typed] at run
        obtain ⟨bytes, _, run⟩ := ok_of_bind run
        obtain ⟨total, _, run⟩ := ok_of_bind run
        rw [holds, enterChild_loads _ _ loads rfl] at run
        cases limit with
        | zero => cases run
        | succ limit =>
          obtain ⟨total', opened, run⟩ := ok_of_bind run
          cases run
          refine ⟨[q], total', rfl, fun _ _ _ _ _ _ => ⟨trivial, ?_⟩⟩
          exact Nat.lt_of_lt_of_eq (addOpening_inside opened) (arrayValues_length slots)
  | inner kids ih =>
    cases object with
    | inner typed children _ written =>
      cases limit with
      | zero => cases run
      | succ limit =>
        simp only [openWalk, typed] at run
        cases chunk : stem[depth]? with
        | none =>
          rw [chunk] at run
          cases run
        | some idx =>
          rw [chunk] at run
          obtain ⟨total, opened, run⟩ := ok_of_bind run
          have inside := addOpening_inside opened
          rw [children, arrayValues_length] at inside
          rw [children] at run
          obtain ⟨child, found, run⟩ := ok_of_bind run
          let b : Fin (kzgScheme backend setup).width := ⟨idx, inside⟩
          have get := childList_get (refs (kzgScheme backend setup) kids) b
          cases found.symm.trans get
          by_cases gone : kids b = .empty
          · have none : refs (kzgScheme backend setup) kids b = none := by rw [refs, gone, refOf_empty]
            rw [none] at run
            cases run
            refine ⟨[], total, ?_, fun digits x p _ lands points => ?_⟩
            · rw [Progress.recorded, internAll, List.append_nil]
            · cases digits with
              | nil => exact lands.elim
              | cons i digits =>
                have two := lands_stations (kzgScheme backend setup) (t := kids i) lands x
                have later : (stations (kzgScheme backend setup) (kids i) digits x).map
                    Station.point = [] := (List.cons.inj points).2
                rw [List.map_eq_nil_iff.mp later] at two
                simp at two
          · obtain ⟨ref, next, named, loads, object'⟩ := written_loads lawful valid gone (written b)
            obtain ⟨q, point⟩ : ∃ q, nodePoint (kzgScheme backend setup) (kids b) = some q := by
              obtain ⟨q, point, _⟩ := Option.map_eq_some_iff.mp named
              exact ⟨q, point⟩
            have held : refs (kzgScheme backend setup) kids b = some ref := named
            rw [held, Option.map_some, entry_word,
              enterChild_loads _ _ loads ((object_commitment object').trans point)] at run
            obtain ⟨ps, total', rfl, steers⟩ := ih b object' run
            refine ⟨q :: ps, total', recorded_cons _ q ps _ total', ?_⟩
            intro digits x p apart lands points
            cases digits with
            | nil => exact lands.elim
            | cons i digits =>
              have later : (stations (kzgScheme backend setup) (kids i) digits x).map
                  Station.point = (q :: ps).map some := (List.cons.inj points).2
              have same : kids i = kids b := ref_unique valid (written i) (written b) (by
                rw [refOf, refOf, stations_head (t := kids i) lands x later, point])
              obtain rfl : i = b := apart.1 i b same (same ▸ gone)
              obtain ⟨steered, small⟩ := steers digits x q (apart.2 b) lands later
              refine ⟨⟨stem.drop (depth + 1), ?_, steered⟩, small⟩
              obtain ⟨within, value⟩ := List.getElem?_eq_some_iff.mp chunk
              rw [List.drop_eq_getElem_cons within, value]

end Walk

end VerkleOptimized
