import StatelessEthereum.MultiproofSharing
import StatelessEthereum.VerkleSessions
import StatelessEthereum.StemDepth

/- How large the proofs of a Verkle tree are, which is what the experiments measure: a
   key's proof grows with the digits that its stem shares with the nearest other stem. -/
namespace VerkleProofSizes
open PythonError BigEndian PutLog KzgSetup KzgScheme DiskSessions StemDepth
open VerkleSerialization KeyCollisions VerkleOpenings VerkleSessions
open VerkleTrees hiding insert get
open StemTree hiding insert lookup
open VerkleStorage VerkleKey VerkleRuns VerkleCompleteness
variable {Point G1 G2 FQ12 : Type} {scheme : Scheme Point}

/-- `get_proof_size`: 48 bytes for each compressed point, and for the witness. -/
def getProofSize (commitments : List (List Point)) : Nat :=
  (commitments.map fun keyCommitments => keyCommitments.length * 48).sum + 48

def stemChunks (width : Nat) (key : Word) : List Nat :=
  ((splitKey width key.bytes).toOption.map Prod.fst).getD []

def keyOverlap (width : Nat) (run : List (Word × Word)) (key : Word) : Nat :=
  overlap (stemChunks width key) (run.map fun e => stemChunks width e.1)

/- The walk of `get_proof_tree`. -/

theorem proofPoints_length (t : Trie scheme.width) (k : List (Fin scheme.width)) :
    (proofPoints scheme t k).length = trail t k := by
  induction t generalizing k with
  | empty => rfl
  | group stem slots =>
    rw [proofPoints, trail]
    split <;> rfl
  | inner kids ih =>
    cases k with
    | nil => rfl
    | cons i k => rw [proofPoints, trail, List.length_cons, ih]

theorem proofPoints_present (lawful : Lawful scheme) (narrow : scheme.width ≤ 256)
    (t : Trie scheme.width) (k : List (Fin scheme.width)) :
    ∀ o ∈ proofPoints scheme t k, o.isSome := by
  have array (f : Fin scheme.width → Option Word) : (arrayPoint scheme f).isSome := by
    obtain ⟨p, point, _⟩ := commit_childList lawful f
    rw [point]
    rfl
  have group (stem : List (Fin scheme.width)) (slots : Fin scheme.width → Option Word) :
      (nodePoint scheme (.group stem slots)).isSome := by
    obtain ⟨p, point, _⟩ := commit_extension lawful (narrow_stem narrow stem)
      (suffixRef scheme slots)
    rw [nodePoint, point]
    rfl
  induction t generalizing k with
  | empty => simp [proofPoints]
  | group stem slots =>
    intro o member
    rw [proofPoints] at member
    rcases List.mem_cons.mp member with rfl | last
    · exact group stem slots
    · split at last
      · rw [List.mem_singleton.mp last]
        exact array slots
      · cases last
  | inner kids ih =>
    cases k with
    | nil =>
      intro o member
      rw [List.mem_singleton.mp member, nodePoint_inner]
      exact array _
    | cons i k =>
      intro o member
      rcases List.mem_cons.mp member with rfl | below
      · rw [nodePoint_inner]
        exact array _
      · exact ih i k o below

theorem present_length {os : List (Option Point)} (present : ∀ o ∈ os, o.isSome) :
    (os.filterMap id).length = os.length := by
  induction os with
  | nil => rfl
  | cons o os ih =>
    obtain ⟨p, rfl⟩ := Option.isSome_iff_exists.mp (present o List.mem_cons_self)
    have rest := ih fun o member => present o (List.mem_cons_of_mem _ member)
    calc ((some p :: os).filterMap id).length = (os.filterMap id).length + 1 := rfl
      _ = (some p :: os).length := by rw [rest, List.length_cons]

theorem proofOf_length (lawful : Lawful scheme) (narrow : scheme.width ≤ 256)
    (t : Trie scheme.width) (k : List (Fin scheme.width)) :
    (proofOf scheme t k).length = trail t k - 1 := by
  have present := proofPoints_present lawful narrow t k
  rw [proofOf, present_length fun o member => present o (List.mem_of_mem_drop member),
    List.length_drop, proofPoints_length]

/- The stems of a run. -/
section Keys
variable {width bits : Nat} [NeZero width] (aligned : Aligned width bits)
include aligned

theorem treeOf_stems (run : List (Word × Word)) (k : List (Fin width)) :
    Stem (treeOf width run) k ↔ k ∈ run.map fun e => stemOf width e.1 := by
  induction run using List.reverseRecOn with
  | nil =>
    have bare_stem : ¬ Stem (treeOf width ([] : List (Word × Word))) k := by
      rintro ⟨x, held⟩
      cases k <;> simp [treeOf, StemTree.lookup, bare] at held
    exact iff_of_false bare_stem List.not_mem_nil
  | append_singleton run e ih =>
    have grown := StemTree.lookup_insert (treeOf_fits aligned.toCuts run e.1) (suffixOf width e.1) e.2
    rw [List.map_append, List.map_singleton, List.mem_append, List.mem_singleton, ← ih, treeOf_append]
    constructor
    · rintro ⟨x, held⟩
      rw [grown] at held
      split at held
      · rename_i new
        exact Or.inr new.1
      · exact Or.inl ⟨x, held⟩
    · rintro (⟨x, held⟩ | rfl)
      · refine ⟨x, ?_⟩
        rw [grown]
        split
        · exact Option.some_ne_none _
        · exact held
      · refine ⟨suffixOf width e.1, ?_⟩
        rw [grown, if_pos ⟨rfl, rfl⟩]
        exact Option.some_ne_none _

theorem stemChunks_map (key : Word) : stemChunks width key = (stemOf width key).map Fin.val := by
  rw [stemChunks, splitKey_ok aligned.toCuts key]
  rfl

theorem keyOverlap_stems (run : List (Word × Word)) (key : Word) : keyOverlap width run key =
    overlap (stemOf width key) (run.map fun e => stemOf width e.1) := by
  have names : (run.map fun e => stemChunks width e.1) =
      (run.map fun e => stemOf width e.1).map (List.map Fin.val) := by
    rw [List.map_map]
    exact List.map_congr_left fun e _ => stemChunks_map aligned e.1
  rw [keyOverlap, stemChunks_map aligned, names, overlap_map Fin.val_injective]

end Keys

/-- A proof has one point for every chunk shared with the nearest other stem, and two for
    the extension and the suffix node. -/
theorem kept_proof_length (lawful : Lawful scheme) (narrow : scheme.width ≤ 256)
    [NeZero scheme.width] {bits : Nat} (aligned : Aligned scheme.width bits)
    {run : List (Word × Word)} {t : VerkleTree Point}
    {kids : Fin scheme.width → Trie scheme.width} (kept : Kept scheme run t kids) {key : Word}
    (inserted : key ∈ run.map Prod.fst) :
    (proofOf scheme (.inner kids) (stemOf scheme.width key)).length =
      keyOverlap scheme.width run key + 2 := by
  have stems := treeOf_stems aligned run
  rw [kept.tree] at stems
  have member : stemOf scheme.width key ∈ run.map fun e => stemOf scheme.width e.1 := by
    obtain ⟨e, inside, rfl⟩ := List.mem_map.mp inserted
    exact List.mem_map_of_mem inside
  rw [proofOf_length lawful narrow, rooted_overlap kept.rooted stems member,
    keyOverlap_stems aligned]
  omega

theorem size_sum (commitments : List (List Point)) :
    getProofSize commitments = 48 * ((commitments.map List.length).sum + 1) := by
  have scaled : (commitments.map fun keyCommitments => keyCommitments.length * 48).sum =
      (commitments.map List.length).sum * 48 := by
    induction commitments with
    | nil => rfl
    | cons c commitments ih =>
      rw [List.map_cons, List.sum_cons, List.map_cons, List.sum_cons, ih, Nat.add_mul]
  rw [getProofSize, scaled]
  omega

/-- The size that the plain prover reports, for keys inserted in any session. -/
theorem proof_sizes {width : Nat} (supported : width = 16 ∨ width = 256)
    (curve : Curve Point2D G1 G2 FQ12) (logFloor : Nat → Nat) (sha256 : Bytes → Bytes) {zlib : Zlib}
    (lossless : zlib.Lossless) {secret : Nat} {setup : SetupObject G1 G2}
    (made : verkleKzgSetup curve secret width = .ok setup) {s : State Point2D}
    (session : Session (treeKeeper (plainScheme curve logFloor sha256 zlib setup)) s)
    (occupied : s.1 ≠ []) (valid : s.2.disk.db.Consistent) (keys : List Word)
    (inserted : ∀ key ∈ keys, lastInserted s.1 key ≠ none) :
    ∃ proofs witness,
      VerkleProof.generateProof (plainBackend curve logFloor sha256 zlib) setup s.2
        (keys.map Word.bytes) = .ok (proofs, witness) ∧
      proofs.map List.length = keys.map (fun key => keyOverlap width s.1 key + 2) ∧
      getProofSize proofs =
        48 * ((keys.map fun key => keyOverlap width s.1 key + 2).sum + 1) := by
  obtain ⟨k, w, bits, standard, ready⟩ := setup_ready supported made
  have positive := width_neZero (plainBackend curve logFloor sha256 zlib) ready
  have positive' : NeZero (plainScheme curve logFloor sha256 zlib setup).width := positive
  have faithful : Faithful (plainBackend curve logFloor sha256 zlib).format :=
    plainFormat_faithful sha256 lossless
  have lawful : Lawful (plainScheme curve logFloor sha256 zlib setup) := ready_lawful faithful ready
  have aligned : Aligned (plainScheme curve logFloor sha256 zlib setup).width bits := ready.aligned
  obtain ⟨kids, kept⟩ := session_kept lawful aligned.toCuts (ready_narrow ready) session valid
  have grown := kept_grown curve logFloor sha256 lossless ready kept occupied valid
  have found (key : Word) (member : key ∈ keys) :
      stored (plainBackend curve logFloor sha256 zlib) setup kids key ≠ none := by
    have answer := treeOf_lookup aligned s.1 key
    rw [kept.tree] at answer
    intro none
    exact inserted key member (answer.symm.trans none)
  obtain ⟨_, _, total, _, _, gathered, totals, _⟩ := aggregate_ok grown keys found
  obtain ⟨witness, produced⟩ := @MultiproofSharing.generateWitness_ok _ _ _ _
    (plainBackend curve logFloor sha256 zlib) _ _ _ _ standard _ totals
  have lengths : (keys.map fun key => proofOf (plainScheme curve logFloor sha256 zlib setup)
      (.inner kids) (stemOf (plainScheme curve logFloor sha256 zlib setup).width key)).map
        List.length = keys.map (fun key => keyOverlap width s.1 key + 2) := by
    rw [List.map_map]
    apply List.map_congr_left
    intro key member
    obtain ⟨v, last⟩ := Option.ne_none_iff_exists'.mp (inserted key member)
    have present : key ∈ s.1.map Prod.fst := List.mem_map.mpr ⟨_, lastInserted_member last, rfl⟩
    rw [Function.comp_apply, kept_proof_length lawful (ready_narrow ready) aligned kept present,
      ← made_width made]
    rfl
  refine ⟨_, witness, ?_, lengths, ?_⟩
  · simp only [VerkleProof.generateProof, gathered, produced, bind, Except.bind]
    rfl
  · rw [size_sum, lengths]

theorem proof_sizes_sample : ∃ proofs witness,
    VerkleProof.generateProof (plainBackend forkCurve sampleLogFloor forkSha256 forkZlib) forkSetup
      secondTree ([forkKey, sampleKey].map Word.bytes) = .ok (proofs, witness) ∧
    getProofSize proofs = 240 := by
  have inserted : ∀ key ∈ [forkKey, sampleKey],
      lastInserted [(sampleKey, sampleValue), (forkKey, sampleValue)] key ≠ none := by decide
  have overlaps : 48 * (([forkKey, sampleKey].map fun key => keyOverlap 16
      [(sampleKey, sampleValue), (forkKey, sampleValue)] key + 2).sum + 1) = 240 := by
    decide
  obtain ⟨proofs, witness, generated, _, size⟩ := proof_sizes (Or.inl rfl) forkCurve sampleLogFloor
    forkSha256 forkZlib_lossless forkSetup_made (firstTree_session.trans secondTree_step)
    (List.cons_ne_nil _ _) haltedDisk_facts.2.2.1 _ inserted
  exact ⟨proofs, witness, generated, size.trans overlaps⟩

end VerkleProofSizes
