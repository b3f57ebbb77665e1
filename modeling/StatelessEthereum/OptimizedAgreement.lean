import StatelessEthereum.VerkleOptimized

/- Where the optimized prover of the Verkle tree agrees with the plain one. -/
namespace OptimizedAgreement
open PythonError BigEndian PutLog KzgSetup KzgScheme CommitmentScheme HashScheme Interning
open VerkleOpenings VerkleCompleteness MultiproofOpenings MultiproofSharing VerkleOptimized
open VerkleProof (generateWitness)
open VerkleTrees hiding insert get getKeyChunks
open VerkleSerialization
open StemTree hiding insert lookup
open VerkleStorage VerkleKey VerkleRuns
variable {Point G1 G2 FQ12 : Type}

/- Bytes for chunks. -/

/-- The first chunks of a key are the first bytes of its stem, and its last
    chunk is its last byte. -/
def CutByBytes (width : Nat) (key : Bytes) (count : Nat) : Prop :=
  (keyChunks width key).take count <+: (key.take 31).map UInt8.toNat ∧
    (keyChunks width key).getLast? = key[31]?.map UInt8.toNat

theorem steered_iff {scheme : Scheme Point} {t : Trie scheme.width}
    {digits : List (Fin scheme.width)} (lands : Lands t digits) (x : Fin scheme.width)
    (stem : List Nat) : Steered t digits stem ↔
      (digits.map Fin.val).take ((stations scheme t digits x).length - 2) <+: stem := by
  induction t generalizing digits stem with
  | empty => exact lands.elim
  | group own slots => simp [Steered, stations]
  | inner kids ih =>
    cases digits with
    | nil => exact lands.elim
    | cons i digits =>
      have two := lands_stations scheme (t := kids i) lands x
      have count : (stations scheme (.inner kids) (i :: digits) x).length - 2 =
          (stations scheme (kids i) digits x).length - 2 + 1 := by
        rw [stations, List.length_cons]
        omega
      rw [count, List.map_cons, List.take_succ_cons, List.cons_prefix_iff]
      constructor
      · rintro ⟨rest, rfl, steered⟩
        exact ⟨rest, rfl, (ih i lands rest).mp steered⟩
      · rintro ⟨rest, rfl, front⟩
        exact ⟨rest, rfl, (ih i lands rest).mpr front⟩

/- The two widths. -/

theorem cutByBytes_byte (key : Word) {count : Nat} (few : count ≤ 31) :
    CutByBytes 256 key.bytes count := by
  rw [CutByBytes, chunks_byte]
  constructor
  · rw [List.map_take]
    exact List.take_prefix_take_left few
  · rw [List.getLast?_eq_getElem?, List.length_map, key.size, List.getElem?_map]

theorem front_hex (key : Word) {count : Nat} (few : count < 64) :
    (keyChunks 16 key.bytes).take count <+: (key.bytes.take 31).map UInt8.toNat ↔
      ∀ i < count, i < 31 ∧ key.bytes[i]? = some 0 := by
  have size : (keyChunks 16 key.bytes).length = 64 := keyChunks_length aligned_hex.toCuts key.bytes
  have each : (keyChunks 16 key.bytes).take count <+: (key.bytes.take 31).map UInt8.toNat ↔
      ∀ i < count, ((key.bytes.take 31).map UInt8.toNat)[i]? = (keyChunks 16 key.bytes)[i]? := by
    have taken : ((keyChunks 16 key.bytes).take count).length = count := by
      rw [List.length_take, size, Nat.min_eq_left (Nat.le_of_lt few)]
    rw [List.prefix_iff_getElem?]
    constructor
    · intro front i inside
      rw [front i (by rwa [taken]), List.getElem_take, ← List.getElem?_eq_getElem]
    · intro same i inside
      rw [same i (by rwa [taken] at inside), List.getElem_take, ← List.getElem?_eq_getElem]
  rw [each]
  constructor
  · -- a chunk lies in an earlier byte, and the first is the upper half of its own
    intro same i
    induction i using Nat.strong_induction_on with
    | _ i ih =>
      intro inside
      obtain ⟨x, here, chunk⟩ := chunk_hex key (Nat.lt_trans inside few)
      have place := same i inside
      rw [chunk, List.getElem?_map, Option.map_eq_some_iff] at place
      obtain ⟨y, taken, value⟩ := place
      rw [List.getElem?_take] at taken
      split at taken
      · rename_i short
        refine ⟨short, ?_⟩
        have zero : y.toNat = (0 : UInt8).toNat := by
          by_cases first : i = 0
          · subst first
            cases taken.symm.trans here
            rw [if_pos rfl] at value
            rw [UInt8.toNat_zero]
            omega
          · have earlier := (ih (i / 2) (by omega) (by omega)).2
            cases earlier.symm.trans here
            simpa using value
        rw [taken, UInt8.toNat_inj.mp zero]
      · cases taken
  · intro zeros i inside
    obtain ⟨short, zero⟩ := zeros i inside
    obtain ⟨x, here, chunk⟩ := chunk_hex key (Nat.lt_trans inside few)
    cases (zeros (i / 2) (by omega)).2.symm.trans here
    rw [chunk, List.getElem?_map, List.getElem?_take, if_pos short, zero]
    simp

/-- At width 16 they are bytes only where these are zero and the last one is small. -/
theorem cutByBytes_hex (key : Word) {count : Nat} (few : count < 64) :
    CutByBytes 16 key.bytes count ↔ (∀ i < count, i < 31 ∧ key.bytes[i]? = some 0) ∧
      ∃ last, key.bytes[31]? = some last ∧ last.toNat < 16 := by
  obtain ⟨last, final, byte⟩ := word_byte key (show 31 < 32 by decide)
  rw [Nat.sub_self, Nat.mul_zero, Nat.shiftRight_zero] at byte
  rw [CutByBytes, front_hex key few, lastChunk aligned_hex, final, Option.map_some,
    Option.some.injEq]
  refine and_congr_right fun _ => ?_
  constructor
  · intro same
    exact ⟨last, rfl, same ▸ Nat.mod_lt _ (by decide)⟩
  · rintro ⟨other, same, small⟩
    cases same
    omega

/- All keys. -/

/-- What `get_proof_tree` gives for a key. -/
abbrev keyProof (backend : Backend Point G1 G2 FQ12) (setup : SetupObject G1 G2)
    [NeZero (kzgScheme backend setup).width]
    (kids : Fin (kzgScheme backend setup).width → Trie (kzgScheme backend setup).width)
    (key : Word) : List Point :=
  proofOf (kzgScheme backend setup) (.inner kids) (stemOf (kzgScheme backend setup).width key)

section Keys
variable {backend : Backend Point G1 G2 FQ12} {setup : SetupObject G1 G2} {k bits : Nat}
  {w : ZMod CURVE_ORDER} {tree : VerkleTree Point}
  {kids : Fin (kzgScheme backend setup).width → Trie (kzgScheme backend setup).width}
  [NeZero (kzgScheme backend setup).width] (grown : Grown backend setup k w bits tree kids)
include grown

/-- The stations of a key are the root and what `get_proof_tree` lists. -/
theorem keyPoints {key : Word} (found : stored backend setup kids key ≠ none) :
    ∃ p, (keyStations backend setup kids key).map Station.point =
      (p :: keyProof backend setup kids key).map some := by
  have lawful := ready_lawful grown.faithful grown.ready
  obtain ⟨ps, points⟩ := station_known lawful (ready_narrow grown.ready) (.inner kids)
    (stemOf (kzgScheme backend setup).width key) (suffixOf (kzgScheme backend setup).width key)
  have two := lands_stations (kzgScheme backend setup) (lookup_lands found)
    (suffixOf (kzgScheme backend setup).width key)
  cases ps with
  | nil =>
    rw [List.map_eq_nil_iff.mp points] at two
    simp at two
  | cons p ps =>
    refine ⟨p, ?_⟩
    rw [keyStations, keyProof, proofOf, proofPoints_stations found, points, ← List.map_drop,
      List.filterMap_map]
    simp only [Function.comp_def, id_eq, List.filterMap_some, List.drop_one, List.tail_cons]

theorem cutByBytes_iff {key : Word} (found : stored backend setup kids key ≠ none) :
    ∃ last, key.bytes[31]? = some last ∧ (CutByBytes setup.width key.bytes
        ((keyProof backend setup kids key).length - 1) ↔
      Steered (.inner kids) (stemOf (kzgScheme backend setup).width key)
          ((key.bytes.take 31).map UInt8.toNat) ∧
        last.toNat < (kzgScheme backend setup).width) ∧
      (last.toNat < (kzgScheme backend setup).width →
        (suffixOf (kzgScheme backend setup).width key).val = last.toNat) := by
  have aligned : Aligned (kzgScheme backend setup).width bits := grown.ready.aligned
  obtain ⟨last, byte, suffix⟩ := suffixOf_last aligned (ready_narrow grown.ready) key
  have count : (keyProof backend setup kids key).length + 1 =
      (keyStations backend setup kids key).length := proofOf_length grown found
  have short := stations_length (kzgScheme backend setup) (.inner kids)
    (stemOf (kzgScheme backend setup).width key) (suffixOf (kzgScheme backend setup).width key)
  have digits := keyDigits_val aligned.toCuts key
  rw [keyDigits_split aligned.toCuts, List.map_append, List.map_singleton] at digits
  have small (fits : last.toNat < (kzgScheme backend setup).width) :
      (suffixOf (kzgScheme backend setup).width key).val = last.toNat := by
    rw [suffix, Nat.mod_eq_of_lt fits]
  have few : (keyStations backend setup kids key).length - 2 ≤
      ((stemOf (kzgScheme backend setup).width key).map Fin.val).length := by
    rw [List.length_map, keyStations]
    omega
  have front : (keyChunks setup.width key.bytes).take
      ((keyProof backend setup kids key).length - 1) =
      ((stemOf (kzgScheme backend setup).width key).map Fin.val).take
        ((keyStations backend setup kids key).length - 2) := by
    rw [show (keyProof backend setup kids key).length - 1 =
      (keyStations backend setup kids key).length - 2 by omega]
    rw [show keyChunks setup.width key.bytes = _ from digits.symm, List.take_append_of_le_length few]
  have back : (keyChunks setup.width key.bytes).getLast? =
      some (suffixOf (kzgScheme backend setup).width key).val := by
    rw [show keyChunks setup.width key.bytes = _ from digits.symm, List.getLast?_concat]
  refine ⟨last, byte, ?_, small⟩
  rw [CutByBytes, front, back, byte, Option.map_some, Option.some.injEq,
    steered_iff (lookup_lands found) (suffixOf (kzgScheme backend setup).width key)]
  refine and_congr_right fun _ => ⟨fun same => ?_, small⟩
  rw [← same]
  exact (suffixOf (kzgScheme backend setup).width key).isLt

/-- At width 256 the bytes of a stored key serve as its chunks. -/
theorem cut_byte (width : setup.width = 256) {key : Word}
    (found : stored backend setup kids key ≠ none) :
    CutByBytes setup.width key.bytes ((keyProof backend setup kids key).length - 1) := by
  have aligned : Aligned (kzgScheme backend setup).width bits := grown.ready.aligned
  have count : (keyProof backend setup kids key).length + 1 =
      (keyStations backend setup kids key).length := proofOf_length grown found
  have short : (keyStations backend setup kids key).length ≤
      (stemOf (kzgScheme backend setup).width key).length + 2 := stations_length _ _ _ _
  have thirty : depth (kzgScheme backend setup).width = 30 := by
    rw [show (kzgScheme backend setup).width = 256 from width]
    rfl
  have few : (keyProof backend setup kids key).length - 1 ≤ 31 := by
    rw [stemOf_length aligned.toCuts key, thirty] at short
    omega
  rw [width]
  exact cutByBytes_byte key few

variable [DecidableEq Point]

theorem openKey_follows (rootBytes : Bytes) (path : List Nat) {key : Word}
    (found : stored backend setup kids key ≠ none)
    (cut : CutByBytes setup.width key.bytes ((keyProof backend setup kids key).length - 1))
    {root : TreeNode Point}
    (object : ObjectOf (kzgScheme backend setup) tree.disk.db root (.inner kids))
    (total : List Int) (table : Table Point Point) :
    openKey backend setup tree.disk.db rootBytes root key.bytes path total table =
      (VerkleProof.openKey backend setup tree.disk.db rootBytes root total (key.bytes,
        keyProof backend setup kids key, path)).map
          (Progress.recorded ⟨total, table, []⟩ (keyProof backend setup kids key)) := by
  have lawful := ready_lawful grown.faithful grown.ready
  obtain ⟨chunks, cuts, lastChunk, front⟩ := chunks_ok backend grown.ready key
  obtain ⟨last, byte, steers, small⟩ := cutByBytes_iff grown found
  obtain ⟨steered, fits⟩ := steers.mp cut
  obtain ⟨p, points⟩ := keyPoints grown found
  have count : (keyProof backend setup kids key).length + 1 =
      (keyStations backend setup kids key).length := proofOf_length grown found
  have few := keyStations_length grown key
  have follows := openWalk_follows lawful grown.ready grown.valid rootBytes path
    (suffixOf (kzgScheme backend setup).width key) (lookup_lands found)
    (show Steered _ _ (List.drop 0 _) from steered) object points (Nat.lt_succ_self _) (Nat.lt_of_lt_of_le (by omega) (by decide : 258 ≤ 256 ^ 2 + 1))
    ⟨total, table, []⟩
  simp only [openKey, byte, ← small fits, VerkleProof.openKey, cuts, lastChunk, front, bind,
    Except.bind]
  exact follows

/-- The loop over the keys gives the total of the plain prover. Every key has the
    indices of its commitments. -/
theorem openKeys_follows (rootBytes : Bytes) {root : TreeNode Point}
    (object : ObjectOf (kzgScheme backend setup) tree.disk.db root (.inner kids)) (keys : List Word)
    (found : ∀ key ∈ keys, stored backend setup kids key ≠ none)
    (cut : ∀ key ∈ keys,
      CutByBytes setup.width key.bytes ((keyProof backend setup kids key).length - 1))
    {total after : List Int}
    (plain : keys.foldlM (fun total key => VerkleProof.openKey backend setup tree.disk.db rootBytes
      root total (key.bytes, keyProof backend setup kids key, pathOf setup.width key.bytes)) total =
      .ok after) {table : Table Point Point} (sound : Sound id table) (keyIdx : Nat) :
    ∃ table' paths, openKeys backend setup tree.disk.db rootBytes root total table keyIdx
        (keys.map fun key => (key.bytes, pathOf setup.width key.bytes)) =
          .ok (after, table', paths) ∧
      table.entries <+: table'.entries ∧
      List.Forall₂ (fun key info => info.Leads table'.entries (keyProof backend setup kids key))
        keys paths := by
  induction keys generalizing total table keyIdx with
  | nil =>
    cases plain
    exact ⟨table, [], rfl, List.prefix_rfl, .nil⟩
  | cons key keys ih =>
    rw [List.foldlM_cons] at plain
    obtain ⟨more, here, later⟩ := ok_of_bind plain
    have step := openKey_follows grown rootBytes (pathOf setup.width key.bytes)
      (found key List.mem_cons_self) (cut key List.mem_cons_self) object total table
    rw [here] at step
    have read := internAll_reads (keyProof backend setup kids key) sound fun a _ b _ same => same
    obtain ⟨table', paths, runs, longer, each⟩ := ih
      (fun other member => found other (List.mem_cons_of_mem _ member))
      (fun other member => cut other (List.mem_cons_of_mem _ member)) later
      (internAll_sound (keyProof backend setup kids key) sound) (keyIdx + 1)
    refine ⟨table', ⟨keyIdx, (internAll id table (keyProof backend setup kids key)).2.map Int.ofNat⟩ ::
      paths, ?_, (internAll_extends _ table).trans longer,
      .cons (leads_extends longer ⟨_, rfl, read⟩) each⟩
    simp only [List.map_cons, openKeys, step, Except.map, Progress.recorded, bind, Except.bind, runs,
      List.nil_append]

theorem openKey_steers (apart : Unrepeated (.inner kids)) (rootBytes : Bytes) (path : List Nat)
    {key : Word} (found : stored backend setup kids key ≠ none) {root : TreeNode Point}
    (object : ObjectOf (kzgScheme backend setup) tree.disk.db root (.inner kids)) {total : List Int}
    {table : Table Point Point} {state : Progress Point}
    (run : openKey backend setup tree.disk.db rootBytes root key.bytes path total table = .ok state) :
    ∃ ps total', state = Progress.recorded ⟨total, table, []⟩ ps total' ∧
      (ps = keyProof backend setup kids key →
        CutByBytes setup.width key.bytes ((keyProof backend setup kids key).length - 1)) := by
  have lawful := ready_lawful grown.faithful grown.ready
  obtain ⟨last, byte, steers, _⟩ := cutByBytes_iff grown found
  obtain ⟨p, points⟩ := keyPoints grown found
  simp only [openKey, byte] at run
  obtain ⟨ps, total', recorded, steered⟩ := openWalk_steers lawful grown.valid rootBytes path _ _
    object run
  refine ⟨ps, total', recorded, fun same => ?_⟩
  subst same
  exact steers.mpr (steered _ _ p apart (lookup_lands found) points)

/-- The indices of every key lead to the commitments that its walk came by. -/
theorem openKeys_steers (apart : Unrepeated (.inner kids)) (rootBytes : Bytes)
    {root : TreeNode Point}
    (object : ObjectOf (kzgScheme backend setup) tree.disk.db root (.inner kids)) (keys : List Word)
    (found : ∀ key ∈ keys, stored backend setup kids key ≠ none) {total after : List Int}
    {table table' : Table Point Point} (sound : Sound id table) {keyIdx : Nat}
    {paths : List PathInfo}
    (run : openKeys backend setup tree.disk.db rootBytes root total table keyIdx
      (keys.map fun key => (key.bytes, pathOf setup.width key.bytes)) = .ok (after, table', paths)) :
    table.entries <+: table'.entries ∧
      List.Forall₂ (fun key info => ∃ ps, info.Leads table'.entries ps ∧
        (ps = keyProof backend setup kids key →
          CutByBytes setup.width key.bytes ((keyProof backend setup kids key).length - 1)))
        keys paths := by
  induction keys generalizing total table keyIdx paths with
  | nil =>
    cases run
    exact ⟨List.prefix_rfl, .nil⟩
  | cons key keys ih =>
    obtain ⟨state, here, run⟩ := ok_of_bind run
    obtain ⟨⟨after', table'', rest⟩, later, run⟩ := ok_of_bind run
    cases run
    obtain ⟨ps, total', rfl, cut⟩ := openKey_steers grown apart rootBytes
      (pathOf setup.width key.bytes) (found key List.mem_cons_self) object here
    have read := internAll_reads ps sound fun a _ b _ same => same
    obtain ⟨longer, each⟩ := ih (fun other member => found other (List.mem_cons_of_mem _ member))
      (internAll_sound ps sound) later
    exact ⟨(internAll_extends ps table).trans longer,
      .cons ⟨ps, leads_extends longer ⟨_, rfl, read⟩, cut⟩ each⟩

theorem aggregate_keys (keys : List Word) :
    ∃ rootBytes root, ObjectOf (kzgScheme backend setup) tree.disk.db root (.inner kids) ∧
      aggregate backend setup tree (keys.map Word.bytes) =
        openKeys backend setup tree.disk.db rootBytes root (List.replicate setup.width 0) .empty 0
          (keys.map fun key => (key.bytes, pathOf setup.width key.bytes)) >>=
            (fun loop => .ok (⟨loop.2.1.entries, loop.2.2⟩, loop.1)) ∧
      VerkleProof.aggregate backend setup tree (keys.map Word.bytes) =
        keys.foldlM (fun total key => VerkleProof.openKey backend setup tree.disk.db rootBytes root
          total (key.bytes, keyProof backend setup kids key, pathOf setup.width key.bytes))
          (List.replicate setup.width 0) >>= fun total =>
            .ok (keys.map (keyProof backend setup kids), total) := by
  obtain ⟨p, root, rootBytes, _, known, commitment, object, bytes, ⟨r, derived⟩, loop⟩ :=
    aggregate_loop grown keys
  have paths := mapM_map_ok (l := keys) (h := Word.bytes)
    fun key _ => (pathOf_ok grown.ready key.bytes).1
  refine ⟨rootBytes, root, object, ?_, loop⟩
  simp only [aggregate, known, paths, commitment, bytes, derived, bind, Except.bind, List.zip_map']

end Keys

/-- The optimized prover returns, with the witness of the plain prover, and the
    indices of every key lead to the commitments of `get_proof_tree`. -/
def Agrees [DecidableEq Point] (backend : Backend Point G1 G2 FQ12) (setup : SetupObject G1 G2)
    (tree : VerkleTree Point) (keys : List Bytes) : Prop :=
  ∃ (deduplicatedProof : DeduplicatedProof Point) (proofs : List (List Point)) (witness : Point),
    generateProof backend setup tree keys = .ok (deduplicatedProof, witness) ∧
    VerkleProof.generateProof backend setup tree keys = .ok (proofs, witness) ∧
    ∀ (i : Nat) (key : Bytes), keys[i]? = some key → ∃ (info : PathInfo) (commitments : List Point),
      deduplicatedProof.proofPaths[i]? = some info ∧
      readIndices deduplicatedProof.commitments info.commitmentIndices = some commitments ∧
      getProofTree (kzgScheme backend setup) tree key = .ok commitments

/-- The bytes that the walk reads of a key are the chunks of the key there: one for
    every internal node on its way, which are all but the last two nodes, and the last. -/
def ReadByBytes (scheme : Scheme Point) (tree : VerkleTree Point) (key : Bytes) : Prop :=
  ∃ proof, getProofTree scheme tree key = .ok proof ∧
    CutByBytes scheme.width key (proof.length - 1)

section Agreement
variable {backend : Backend Point G1 G2 FQ12} {setup : SetupObject G1 G2} {k bits : Nat}
  {w : ZMod CURVE_ORDER} {tree : VerkleTree Point}
  {kids : Fin (kzgScheme backend setup).width → Trie (kzgScheme backend setup).width}
  [NeZero (kzgScheme backend setup).width] (grown : Grown backend setup k w bits tree kids)
include grown

theorem readByBytes_iff (key : Word) : ReadByBytes (kzgScheme backend setup) tree key.bytes ↔
    CutByBytes setup.width key.bytes ((keyProof backend setup kids key).length - 1) := by
  rw [ReadByBytes, getProofTree_ok grown]
  constructor
  · rintro ⟨proof, same, cut⟩
    cases same
    exact cut
  · intro cut
    exact ⟨_, rfl, cut⟩

variable [DecidableEq Point] {keys : List Word}
  (found : ∀ key ∈ keys, stored backend setup kids key ≠ none)
include found

theorem cut_agrees (cut : ∀ key ∈ keys,
      CutByBytes setup.width key.bytes ((keyProof backend setup kids key).length - 1))
    {proofs : List (List Point)} {total : List Int}
    (plain : VerkleProof.aggregate backend setup tree (keys.map Word.bytes) = .ok (proofs, total))
    {witness : Point} (made : generateWitness backend setup total = .ok witness) :
    Agrees backend setup tree (keys.map Word.bytes) := by
  obtain ⟨rootBytes, root, object, loop, loop'⟩ := aggregate_keys grown keys
  have whole : VerkleProof.generateProof backend setup tree (keys.map Word.bytes) =
      .ok (proofs, witness) := by
    simp only [VerkleProof.generateProof, plain, made, bind, Except.bind]
  rw [loop'] at plain
  obtain ⟨after, run, same⟩ := ok_of_bind plain
  cases same
  obtain ⟨table, paths, runs, _, each⟩ := openKeys_follows grown rootBytes object keys found cut run
    (sound_empty id) 0
  refine ⟨⟨table.entries, paths⟩, _, witness, ?_, whole, fun i bytes listed => ?_⟩
  · simp only [generateProof, loop, runs, made, bind, Except.bind]
  · rw [List.getElem?_map, Option.map_eq_some_iff] at listed
    obtain ⟨key, here, rfl⟩ := listed
    obtain ⟨info, at_place, leads⟩ := each_at each here
    exact ⟨info, _, at_place, leads_read leads, getProofTree_ok grown key⟩

theorem agrees_cut (apart : Unrepeated (.inner kids))
    (agrees : Agrees backend setup tree (keys.map Word.bytes)) : ∀ key ∈ keys,
      CutByBytes setup.width key.bytes ((keyProof backend setup kids key).length - 1) := by
  obtain ⟨rootBytes, root, object, loop, _⟩ := aggregate_keys grown keys
  obtain ⟨deduplicatedProof, proofs, witness, run, _, paths⟩ := agrees
  obtain ⟨aggregated, gathered, run⟩ := ok_of_bind run
  obtain ⟨made, _, run⟩ := ok_of_bind run
  cases run
  rw [loop] at gathered
  obtain ⟨⟨total, table, infos⟩, walked, gathered⟩ := ok_of_bind gathered
  cases gathered
  obtain ⟨_, each⟩ := openKeys_steers grown apart rootBytes object keys found (sound_empty id) walked
  intro key member
  obtain ⟨i, inside, rfl⟩ := List.getElem_of_mem member
  have here : keys[i]? = some keys[i] := List.getElem?_eq_getElem inside
  obtain ⟨info, at_place, ps, leads, cut⟩ := each_at each here
  obtain ⟨info', commitments, at_place', read', proof⟩ := paths i keys[i].bytes (by
    rw [List.getElem?_map, here, Option.map_some])
  cases at_place.symm.trans at_place'
  cases (leads_read leads).symm.trans read'
  rw [getProofTree_ok grown] at proof
  exact cut (Except.ok.inj proof).symm

end Agreement

/- Whole runs. -/
section Runs
variable {width : Nat} (supported : width = 16 ∨ width = 256) (curve : Curve Point2D G1 G2 FQ12)
  (logFloor : Nat → Nat) (sha256 : Bytes → Bytes) {zlib : Zlib} (lossless : zlib.Lossless)
  {secret : Nat} {setup : SetupObject G1 G2}
  (made : verkleKzgSetup curve secret width = .ok setup) (run : List (Word × Word))
  (valid : (insertRun (plainScheme curve logFloor sha256 zlib setup) run).2.disk.db.Consistent)
  (keys : List Word) (occupied : keys ≠ []) (inserted : ∀ key ∈ keys, lastInserted run key ≠ none)
include supported lossless made valid occupied inserted

theorem run_found : ∃ k w bits kids,
    ∃ (_ : NeZero (kzgScheme (plainBackend curve logFloor sha256 zlib) setup).width),
    Standard curve secret setup k w ∧
    Grown (plainBackend curve logFloor sha256 zlib) setup k w bits
      (insertRun (plainScheme curve logFloor sha256 zlib setup) run).2 kids ∧
    treeOf (kzgScheme (plainBackend curve logFloor sha256 zlib) setup).width run = .inner kids ∧
    ∀ key ∈ keys, stored (plainBackend curve logFloor sha256 zlib) setup kids key ≠ none := by
  obtain ⟨k, w, bits, standard, ready⟩ := setup_ready supported made
  have positive := width_neZero (plainBackend curve logFloor sha256 zlib) ready
  obtain ⟨kids, grown, shape, answers, _⟩ := run_grown (plainBackend curve logFloor sha256 zlib)
    (plainFormat_faithful sha256 lossless) ready (inserted_run occupied inserted) valid
  refine ⟨k, w, bits, kids, positive, standard, grown, shape, fun key member => ?_⟩
  rw [answers]
  exact inserted key member

theorem run_agrees (read : ∀ key ∈ keys, ReadByBytes (plainScheme curve logFloor sha256 zlib setup)
      (insertRun (plainScheme curve logFloor sha256 zlib setup) run).2 key.bytes) :
    Agrees (plainBackend curve logFloor sha256 zlib) setup
      (insertRun (plainScheme curve logFloor sha256 zlib setup) run).2 (keys.map Word.bytes) := by
  obtain ⟨k, w, bits, kids, positive, standard, grown, _, found⟩ := run_found supported curve logFloor
    sha256 lossless made run valid keys occupied inserted
  obtain ⟨_, rootBytes, total, _, _, plain, totals, _⟩ := aggregate_ok grown keys found
  obtain ⟨witness, made'⟩ := @generateWitness_ok _ _ _ _
    (plainBackend curve logFloor sha256 zlib) _ _ _ _ standard _ totals
  exact cut_agrees grown found
    (fun key member => (readByBytes_iff grown key).mp (read key member)) plain made'

/-- Where the bytes that the optimized prover reads are the chunks of the keys, it
    agrees with the plain prover; in a tree without repeats nowhere else. -/
theorem optimized_agrees_when [NeZero width] :
    ((∀ key ∈ keys, ReadByBytes (plainScheme curve logFloor sha256 zlib setup)
        (insertRun (plainScheme curve logFloor sha256 zlib setup) run).2 key.bytes) →
      Agrees (plainBackend curve logFloor sha256 zlib) setup
        (insertRun (plainScheme curve logFloor sha256 zlib setup) run).2 (keys.map Word.bytes)) ∧
    (Unrepeated (treeOf width run) →
      Agrees (plainBackend curve logFloor sha256 zlib) setup
        (insertRun (plainScheme curve logFloor sha256 zlib setup) run).2 (keys.map Word.bytes) →
      ∀ key ∈ keys, ReadByBytes (plainScheme curve logFloor sha256 zlib setup)
        (insertRun (plainScheme curve logFloor sha256 zlib setup) run).2 key.bytes) := by
  refine ⟨run_agrees supported curve logFloor sha256 lossless made run valid keys occupied inserted,
    fun apart agrees key member => ?_⟩
  have size := made_width made
  subst size
  obtain ⟨k, w, bits, kids, positive, _, grown, shape, found⟩ := run_found supported curve logFloor
    sha256 lossless made run valid keys occupied inserted
  have apart' : Unrepeated (.inner kids) := shape ▸ apart
  exact (readByBytes_iff grown key).mpr (agrees_cut grown found apart' agrees key member)

end Runs

/-- At width 256 the optimized prover agrees with the plain one on all inserted keys. -/
theorem agrees_byte (curve : Curve Point2D G1 G2 FQ12) (logFloor : Nat → Nat)
    (sha256 : Bytes → Bytes) {zlib : Zlib} (lossless : zlib.Lossless) {secret : Nat}
    {setup : SetupObject G1 G2} (made : verkleKzgSetup curve secret 256 = .ok setup)
    (run : List (Word × Word))
    (valid : (insertRun (plainScheme curve logFloor sha256 zlib setup) run).2.disk.db.Consistent)
    (keys : List Word) (occupied : keys ≠ [])
    (inserted : ∀ key ∈ keys, lastInserted run key ≠ none) :
    Agrees (plainBackend curve logFloor sha256 zlib) setup
      (insertRun (plainScheme curve logFloor sha256 zlib setup) run).2 (keys.map Word.bytes) := by
  obtain ⟨k, w, bits, kids, positive, _, grown, _, found⟩ := run_found (Or.inr rfl) curve logFloor
    sha256 lossless made run valid keys occupied inserted
  exact run_agrees (Or.inr rfl) curve logFloor sha256 lossless made run valid keys occupied inserted
    fun key member => (readByBytes_iff grown key).mpr
      (cut_byte grown (made_width made) (found key member))

/- Two keys of zeros but for their last bytes, at width 16: a second insert into
   one suffix node. The values are those of the code. -/
section Sample

def lowKey : Word := ⟨List.replicate 31 0 ++ [2], rfl⟩

def nextKey : Word := ⟨List.replicate 31 0 ++ [3], rfl⟩

def lowRun : List (Word × Word) := [(lowKey, sampleValue), (nextKey, sampleValue)]

def lowExtension : Point2D := ⟨fq
    1341657081253414300703401617760254960978766696836004100013972032672515876084697053672645792947710349737078007348418, fq
    367584140000496947401256197016861989433637973162872918204010789426325312790602033732041341229241601635043894959743⟩

def lowRoot : Point2D := ⟨fq
    2367281842826865784440514098267237450537901981677746334570033266353180822137004750985013580959322537650778623809678, fq
    3973520478136484621234788195298542614945946780971319351551203079430300343436298638418955848256727264063281414978035⟩

def pairSuffix : Point2D := ⟨fq
    139330259501056352021150737590080951988998527906232987639108631742517306962072450946101372989066728628443453942800, fq
    1151667119963159836289565842268902750069977187746740177441528171680037792254739490643848560080049361784886012078273⟩

def pairExtension : Point2D := ⟨fq
    2497812307895330551948310721937082226736034417774751534485758020681128546943525902916227477532069944715042899410084, fq
    97084462217772377438396327948985364501408184845346323846115443820251746184517461251041042755159989105889796710729⟩

def pairRoot : Point2D := ⟨fq
    106405325724643207529126175071037147280929363384239879642192034201273725294842954540931134294421816088373301144050, fq
    2215838775528298991786713165903655482171561133276192086161351763859046819398022068224308070191367188162314913324719⟩

/-- The constant polynomial of the value. -/
def sharedPoint : Point2D := ⟨fq 7, fq 0⟩

def sharedHash : Bytes :=
  toBytes 32 0xf6b3954368c7bb0a357c969548b29fc3fdf9a444728a4769fe8c26bdbd0caa4f

def lowPoints : List (Nat × Point2D) := [
  (52125625323672416114803509033443728338993883183729907142397922494819744519526, pairSuffix),
  (47655962479184902186347476397206934087409971675058406899918860203234777290006, pairExtension),
  (23389078926544553334389065306886382736967516920296321432380311408952055845071, pairRoot),
  (31850682764145717222951178835142830214266221038674921796465454424612640002817, lowExtension),
  (19429902388907078720227837686760160438110121868687652388114378341715680509158, lowRoot)] ++
    samplePoints

def lowCurve : Curve Point2D Nat Nat Nat := tabledCurve lowPoints

def lowExtensionHash : Bytes :=
  toBytes 32 0x3c93f9d4254b27242dd36a5e870559500f4431135a4f2ccab84d10a35abd7679

def pairSuffixHash : Bytes :=
  toBytes 32 0xcd42edb8a9a324786c86703770e3743ebad3afde0c9f6fe02f0c7aae71f6c5ff

def pairExtensionHash : Bytes :=
  toBytes 32 0xb130b4d91cdd3e5b2df01dfeee2f5afdc50c13438010e4f5427a182db2f2c732

def lowSha256 (text : Bytes) : Bytes :=
  ([(HashScheme.pointText suffixPoint, suffixHash),
    (HashScheme.pointText lowExtension, lowExtensionHash),
    (HashScheme.pointText lowRoot,
      toBytes 32 0x99607b728d8c51e271056e4ae3571369e54bf8d853740e3df8caab0ccbd6664c),
    (HashScheme.pointText sharedPoint, sharedHash),
    (HashScheme.pointText pairSuffix, pairSuffixHash),
    (HashScheme.pointText pairExtension, pairExtensionHash),
    (HashScheme.pointText pairRoot,
      toBytes 32 0x228f6bff370a6119948ae0ae315cf8cdd3e212e585de7d650254285161aa80e2),
    (factorText pairRoot lowKey 0,
      toBytes 32 0x14a0d4d3bc1996555f3b91114f79dad5317c9a094ab557e3d55f36794bb9dfb9),
    (factorText pairRoot lowKey 1,
      toBytes 32 0xf27910038aaa30e2c2f6c6209f8d43a0cea891c17b696eb12e0f36de8c66da3d),
    (factorText pairRoot lowKey 2,
      toBytes 32 0x8a71483f85d21090cefe3c26a9083304cfc022af28c7eeed4b55fe53f4a6f403),
    (factorText pairRoot nextKey 0,
      toBytes 32 0x14b9696d790030c174b81e801c0fc08000078186ce1757281465184a038fd8d1),
    (factorText pairRoot nextKey 1,
      toBytes 32 0xfa0083591ae9c3feb8274776caca3878ab5a11e583962b1568100bc0ed751018),
    (factorText pairRoot nextKey 2,
      toBytes 32 0xc8d06d62388a847b1091cff994b4652d24bb71f2f40bf28bf5552a712a705f60)].lookup
        text).getD (List.replicate 32 0)

def lowStreams : List (Bytes × Bytes) := [
  (1 :: (commitmentBytes lowExtension ++ (62 :: (List.replicate 62 0 ++
      toBytes 32 (ofBytes suffixHash % CURVE_ORDER)))),
    toBytes 40 0x785e6334e0d8de61549abe8941408aeb8f7d91f93ef5f30ccf77bc2f999aa97f4abafc92dcfe8f91 ++
    toBytes 40 0x351d2bbc27feaab5e54a4b596873c8802939f9e6818959d571d36717fdbadf70a7b354da2f69cb96 ++
    toBytes 40 0xd25b9f9a6db48e1cbea6b75bfd946a8ce9e33306292cb779e5eaed182802364f641fcc78734ee06b ++
    toBytes 29 0x09c7c7c4c97c6febce273d3f20681367767dcac5298511b3003bab4002),
  (0 :: (commitmentBytes lowRoot ++ ([0, 16, 1, 0] ++
      toBytes 32 (ofBytes lowExtensionHash % CURVE_ORDER))),
    toBytes 40 0x785e01870078ff00300f616b1a074a19530bb979e212140c55061bbff3053461f9f1a01ed472dcc5 ++
    toBytes 40 0x3a50588c798bca6610fd7232932a3d988e3019d1050fdb017da261695d249ccfb942a70eb8c91097 ++
    toBytes 40 0x5c49db2bd80d519e3cc95052a727fcff4b2cf3c9ca9a0bf2b9f3001001003c93f9d4254b27242dd3 ++
    toBytes 26 0x6a5e870559500f4431135a4f2ccab84d10a35abd767992573837),
  (2 :: (commitmentBytes pairSuffix ++ ([0, 16, 12, 0] ++ sampleValue.bytes ++ sampleValue.bytes)),
    toBytes 40 0x785e63d27fbecff972a9f9c6c4bff57ee50b03942bf2dd33c2f356969d986f7367fb99a8d2dd3a46 ++
    toBytes 40 0x57bd15764be9ce17ac5d6b992360c05edd6ec37b75c9423eaf65694bc42e1e78afdd6591b97745f8 ++
    toBytes 40 0x5b8915ce8f1a98e2574fd09ba5967bfbdcc3e2dfaf5fff7b719041808781006027240f0093093069),
  (1 :: (commitmentBytes pairExtension ++ (62 :: (List.replicate 62 0 ++
      toBytes 32 (ofBytes pairSuffixHash % CURVE_ORDER)))),
    toBytes 40 0x785e633410b06a2b163c70f86f4043b7715bc11c86a0d65bce973633b75a94ecdf7cbb3a86ab4d72 ++
    toBytes 40 0xfb8ea92fb2e216ce4a29fc59b06789fec22a9dc9a66227389ed5791cd2537ae32d9b7abd2333d964 ++
    toBytes 40 0xbb54daa2d97aca6d6947050f2c333de9b85f9ea3f0e284444f3b068a4064a85b6a03eb72034b9f19 ++
    toBytes 27 0xfae98e732cd3c5b86ff32c147ea8cf53b5bef0dbd17f000ecf3a03),
  (0 :: (commitmentBytes pairRoot ++ ([0, 16, 1, 0] ++
      toBytes 32 (ofBytes pairExtensionHash % CURVE_ORDER))),
    toBytes 40 0x785e01860079ff002fb0faf5dacc7118d304a4cc39fa12845b10f3f6780849024a38f2a0e2df5334 ++
    toBytes 40 0x601443d7932f0e503824efa22d24e9f2300e65874076d5018a22c17debda402ed26261e36c36a5c2 ++
    toBytes 40 0x4eb94a4ff7f5c19eb5358ecba90179fff747fa0f101c421eaf001001003d430d85f33fc112fab645 ++
    toBytes 25 0xf6e48d82f8714e6f40801288f6427a182eb2f2c731d7653f90)] ++ sampleStreams

def lowZlib : Zlib := tabledZlib lowStreams

theorem lowZlib_lossless : lowZlib.Lossless := tabledZlib_lossless (by decide +kernel)

def lowSetup : SetupObject Nat Nat :=
  (verkleKzgSetup lowCurve 5 16).toOption.getD ⟨⟨0, 0, 0, [], [], []⟩, [], [], [], []⟩

theorem lowSetup_made : verkleKzgSetup lowCurve 5 16 = .ok lowSetup := by
  obtain ⟨setup, _, _, _, made, _⟩ := supported_ready (Or.inl rfl) lowCurve 5
  rw [lowSetup, made]
  rfl

theorem lowCurve_residual : Residual lowCurve := tabledCurve_residual lowPoints

theorem lowRun_facts :
    (insertRun (plainScheme lowCurve sampleLogFloor lowSha256 lowZlib lowSetup)
      lowRun).2.disk.db.Consistent ∧
    ∀ e ∈ lowRun, (getProofTree (plainScheme lowCurve sampleLogFloor lowSha256 lowZlib lowSetup)
      (insertRun (plainScheme lowCurve sampleLogFloor lowSha256 lowZlib lowSetup) lowRun).2
        e.1.bytes).toOption.map List.length = some 2 := by
  rw [plainScheme_sum _ _ lowCurve_residual]
  decide +kernel

theorem plain_width (curve : Curve Point2D G1 G2 FQ12) (logFloor : Nat → Nat)
    (sha256 : Bytes → Bytes) (zlib : Zlib) (setup : SetupObject G1 G2) :
    (plainScheme curve logFloor sha256 zlib setup).width = setup.width := rfl

theorem lowRun_read {key : Word} (listed : key ∈ lowRun.map Prod.fst) :
    ReadByBytes (plainScheme lowCurve sampleLogFloor lowSha256 lowZlib lowSetup)
      (insertRun (plainScheme lowCurve sampleLogFloor lowSha256 lowZlib lowSetup) lowRun).2
        key.bytes := by
  obtain ⟨e, member, rfl⟩ := List.mem_map.mp listed
  obtain ⟨proof, given, size⟩ := Option.map_eq_some_iff.mp (lowRun_facts.2 e member)
  have width : (plainScheme lowCurve sampleLogFloor lowSha256 lowZlib lowSetup).width = 16 :=
    (plain_width lowCurve sampleLogFloor lowSha256 lowZlib lowSetup).trans (made_width lowSetup_made)
  have low : ∀ e ∈ lowRun, (∀ i < 2 - 1, i < 31 ∧ e.1.bytes[i]? = some 0) ∧
      ∃ last, e.1.bytes[31]? = some last ∧ last.toNat < 16 := by decide
  refine ⟨proof, ok_of_toOption given, ?_⟩
  rw [width, size]
  exact (cutByBytes_hex e.1 (by decide)).mpr (low e member)

end Sample

theorem optimized_agrees_when_sample :
    Agrees (plainBackend lowCurve sampleLogFloor lowSha256 lowZlib) lowSetup
      (insertRun (plainScheme lowCurve sampleLogFloor lowSha256 lowZlib lowSetup) lowRun).2
      [lowKey.bytes, nextKey.bytes, lowKey.bytes] := by
  have present : ∀ key ∈ [lowKey, nextKey, lowKey], lastInserted lowRun key ≠ none := by decide
  have listed : ∀ key ∈ [lowKey, nextKey, lowKey], key ∈ lowRun.map Prod.fst := by decide
  exact (optimized_agrees_when (Or.inl rfl) lowCurve sampleLogFloor lowSha256 lowZlib_lossless
    lowSetup_made lowRun lowRun_facts.1 [lowKey, nextKey, lowKey] (List.cons_ne_nil _ _)
    present).1 fun key member => lowRun_read (listed key member)

/-- The first byte of the key is beyond the width, and the optimized prover raises. -/
theorem sample_disagrees :
    verkleKzgSetup sampleCurve 5 16 = .ok sampleSetup ∧
      (insertRun (plainScheme sampleCurve sampleLogFloor sampleSha256 sampleZlib sampleSetup)
        [(sampleKey, sampleValue)]).2.disk.db.Consistent ∧
      lastInserted [(sampleKey, sampleValue)] sampleKey = some sampleValue ∧
      ¬ Agrees (plainBackend sampleCurve sampleLogFloor sampleSha256 sampleZlib) sampleSetup
        (insertRun (plainScheme sampleCurve sampleLogFloor sampleSha256 sampleZlib sampleSetup)
          [(sampleKey, sampleValue)]).2 [sampleKey.bytes] := by
  refine ⟨sampleSetup_made, sampleRun_consistent, by decide, ?_⟩
  rintro ⟨deduplicatedProof, _, witness, run, _⟩
  have raises : (generateProof (plainBackend sampleCurve sampleLogFloor sampleSha256 sampleZlib)
      sampleSetup (insertRun (plainScheme sampleCurve sampleLogFloor sampleSha256 sampleZlib
        sampleSetup) [(sampleKey, sampleValue)]).2 [sampleKey.bytes]).toBool = false := by
    rw [plainScheme_sum _ _ sampleCurve_residual]
    decide +kernel
  rw [run] at raises
  cases raises

end OptimizedAgreement
