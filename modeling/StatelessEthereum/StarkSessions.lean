import StatelessEthereum.StarkRuns
import StatelessEthereum.StarkVerdicts
import StatelessEthereum.MerkleProofSizes

/- The STARK prover on the tries of whole sessions. -/
namespace StarkSessions
open BigEndian PythonError NibblePaths MerkleNodes MerkleForms CompactTrie TrieWalk TrieDepth
open DiskSessions MerkleSessions MerkleProofSizes
open MerkleTrees hiding insert get
open MerkleStorage MerkleRefinement MerkleRuns MerkleCollect
open FiatShamir LowDegree MptCircuit StarkMerkle StarkVerdicts StarkRuns

section Prover
variable (secureHash sha256 : Digest) (ops : FieldOps) (limit : Nat)

/-- One turn of the loop of `generate_proof`. A value that is a list, as other code could
    store it, cannot be hashed. -/
def proveKey (scheme : Scheme) (secure : Bool) (securityBits : Int) (traceLength : Nat)
    (tree : MerklePatriciaTrie) (key : Bytes) : Except PyError STARKProofResult := do
  let proofPath ← getProofTree scheme secure tree key
  match ← MerkleTrees.get scheme secure tree key with
  | .bytes value => proveLookup secureHash sha256 ops limit securityBits traceLength proofPath key value
  | _ => .error (.typeError "")

/-- The constructor, then `generate_proof`. -/
def generateProof (scheme : Scheme) (secure : Bool) (securityBits : Int) (traceLength : Nat)
    (tree : MerklePatriciaTrie) (keys : List Bytes) :
    Except PyError (List STARKProofResult × Bytes) := do
  let _ ← computeParameters securityBits traceLength
  let commitments ← keys.mapM
    (proveKey secureHash sha256 ops limit scheme secure securityBits traceLength tree)
  .ok (commitments, rootHash scheme tree)

theorem generateProof_returns {scheme : Scheme} {secure : Bool} {securityBits : Int}
    {traceLength : Nat} {tree : MerklePatriciaTrie} {keys : List Bytes} {params : SecurityParameters}
    (set : computeParameters securityBits traceLength = .ok params)
    (proves : ∀ key ∈ keys, ∃ result, proveKey secureHash sha256 ops limit scheme secure
      securityBits traceLength tree key = .ok result) :
    ∃ batch, generateProof secureHash sha256 ops limit scheme secure securityBits traceLength tree
      keys = .ok batch := by
  obtain ⟨proofs, run, _⟩ := PythonError.mapM_ok (R := fun _ _ => True) fun key member => by
    obtain ⟨result, made⟩ := proves key member
    exact ⟨result, made, trivial⟩
  unfold generateProof
  simp only [set, run, bind, Except.bind]
  exact ⟨_, rfl⟩

end Prover

/-- A loop whose turns return or are not over yet. -/
theorem mapM_ends {α β : Type} {f : α → Except PyError β} {R : α → β → Prop} {l : List α}
    (each : ∀ a ∈ l, (∃ b, f a = .ok b ∧ R a b) ∨ f a = .error .diverges) :
    (∃ bs, l.mapM f = .ok bs ∧ List.Forall₂ R l bs) ∨ l.mapM f = .error .diverges := by
  induction l with
  | nil => exact Or.inl ⟨[], rfl, .nil⟩
  | cons a l ih =>
    rw [List.mapM_cons]
    rcases each a List.mem_cons_self with ⟨b, run, holds⟩ | open'
    · rw [run]
      rcases ih fun x member => each x (List.mem_cons_of_mem _ member) with ⟨bs, rest, all⟩ | later
      · left
        refine ⟨b :: bs, ?_, .cons holds all⟩
        rw [rest]
        rfl
      · right
        rw [later]
        rfl
    · right
      rw [open']
      rfl

theorem verifyEach_all {secureHash : Digest} {limit : Nat} {proofs : List STARKProofResult}
    (each : ∀ p ∈ proofs, verifyLookup secureHash limit p = .ok true) :
    verifyEach secureHash limit true proofs = .ok true := by
  induction proofs with
  | nil => rfl
  | cons p rest ih =>
    rw [verifyEach, each p List.mem_cons_self]
    exact ih fun q member => each q (List.mem_cons_of_mem _ member)

/- The nodes of a proof. -/
section Nodes
variable {keccak : Keccak} {secure : Bool}
  {s : List (Entry (keccakScheme keccak.hash) keccakLimits secure) × MerklePatriciaTrie}

/-- The first node on any way hashes to the reference. -/
theorem formsAlong_root (keccak : Keccak) {t : NibbleTrie} (occupied : t ≠ .empty) (k : List Nat) :
    ∃ rest, (formsAlong (keccakCodec keccak) t k).map (keccakCodec keccak).layout =
        (keccakCodec keccak).layout (formOf (keccakCodec keccak) t) :: rest ∧
      keccak.hash ((keccakCodec keccak).layout (formOf (keccakCodec keccak) t)) =
        refOf (keccakCodec keccak) t := by
  have hashed := @refOf_occupied _ _ (keccakCodec keccak) _ occupied
  cases t with
  | empty => exact absurd rfl occupied
  | leaf p v => exact ⟨_, rfl, hashed.symm⟩
  | ext p t => exact ⟨_, rfl, hashed.symm⟩
  | branch cs w => cases k <;> exact ⟨_, rfl, hashed.symm⟩

/-- What the tree gives the prover for a key that has a kept insert. -/
theorem kept_nodes (session : Session (trieKeeper (keccakCodec keccak) secure) s)
    (distinct : Separates keccak.hash (storedEncodings s.2)) {key v : Bytes}
    (last : lastKept s.1 key = some v) : ∃ first rest,
      getProofTree (keccakScheme keccak.hash) secure s.2 key = .ok (first :: rest) ∧
      MerkleTrees.get (keccakScheme keccak.hash) secure s.2 key = .ok (.bytes v) ∧
      first ∈ storedEncodings s.2 ∧
      keccak.hash first = rootHash (keccakScheme keccak.hash) s.2 ∧
      (first :: rest).length ≤
        2 * (pathKey (keccakScheme keccak.hash) secure key).length + 1 := by
  have good := session_good keccak session distinct
  have kept := session_kept keccak session distinct
  have some : s.1 ≠ [] := by
    intro none
    rw [none] at last
    cases last
  have shown := kept_some kept some
  have occupied := kept_occupied some
  have found := (kept_lookup s.1 key).trans last
  have there : keysOf (trieOf (pathEntries s.1))
      (nibbles (pathKey (keccakScheme keccak.hash) secure key)) := by
    rw [keysOf, found]
    exact Option.some_ne_none _
  obtain ⟨rest, nodes, hashed⟩ := formsAlong_root keccak occupied
    (nibbles (pathKey (keccakScheme keccak.hash) secure key))
  have made := getProofTree_forms good shown found
  have bound := trail_bound shown.valid.canonical there
  rw [← @formsAlong_length _ _ (keccakCodec keccak), ← List.length_map, nodes,
    nibbles_length] at bound
  rw [nodes] at made
  refine ⟨_, rest, made, kept_get kept good last, ?_, ?_, bound⟩
  · exact List.mem_map.mpr ⟨_, written_member shown.written occupied, rfl⟩
  · rw [hashed, rootHash_occupied shown occupied]

end Nodes

/- Whole batches. -/
section Batches
variable {keccak : Keccak} {secure : Bool}
  {s : List (Entry (keccakScheme keccak.hash) keccakLimits secure) × MerklePatriciaTrie}
  (session : Session (trieKeeper (keccakCodec keccak) secure) s)
  (distinct : Separates keccak.hash (storedEncodings s.2))
  (writable : ∀ node ∈ storedEncodings s.2, node.length < 2 ^ 32)
  (secureHash sha256 : Digest) {limit k : Nat} {securityBits : Int} (tall : 4 ≤ k) (few : k ≤ 29)
  (draws : limit ≤ 2 ^ 31) (safe : 80 ≤ securityBits)
include session distinct writable tall few draws safe

structure Proved (secureHash : Digest) (keccak : Digest) (limit : Nat) (root : Bytes)
    (claim : Bytes × Bytes) (result : STARKProofResult) : Prop where
  key : result.publicInputs.key = claim.1
  value : result.publicInputs.value = claim.2
  root : keccak.hash result.publicInputs.rootHash = root
  accepted : verifyLookup secureHash limit result = .ok true

theorem proveKey_ends {claim : Bytes × Bytes} (last : lastKept s.1 claim.1 = some claim.2)
    (sizes : claim.1.length < 2 ^ 32 ∧ claim.2.length < 2 ^ 32)
    (room : 2 * (pathKey (keccakScheme keccak.hash) secure claim.1).length + 2 < 2 ^ k) :
    (∃ result, proveKey secureHash sha256 goldilocks limit (keccakScheme keccak.hash) secure
        securityBits (2 ^ k) s.2 claim.1 = .ok result ∧
      Proved secureHash ⟨keccak.hash, keccak.size⟩ limit
        (rootHash (keccakScheme keccak.hash) s.2) claim result) ∨
    proveKey secureHash sha256 goldilocks limit (keccakScheme keccak.hash) secure securityBits
      (2 ^ k) s.2 claim.1 = .error .diverges := by
  obtain ⟨first, rest, nodes, value, stored, hashed, bound⟩ := kept_nodes session distinct last
  have fits : Writable ⟨(first :: rest).headD [], claim.1, claim.2⟩ :=
    ⟨sizes.1, sizes.2, writable first stored⟩
  unfold proveKey
  simp only [nodes, value, bind, Except.bind]
  rcases @lookup_ends secureHash sha256 limit k (first :: rest) claim.1 claim.2 securityBits tall few
    (by omega) fits draws safe with ⟨result, run, inputs, accepted⟩ | open'
  · left
    refine ⟨result, run, by rw [inputs], by rw [inputs], ?_, accepted⟩
    rw [inputs]
    exact hashed
  · exact Or.inr open'

/-- The prover never raises on keys that have a kept insert: a batch that it returns is
    accepted and bound to the keys, the values and the root, or some draw of query
    indices is not over yet. -/
theorem stark_batches_bound {claims : List (Bytes × Bytes)}
    (kept : ∀ c ∈ claims, lastKept s.1 c.1 = some c.2)
    (sizes : ∀ c ∈ claims, c.1.length < 2 ^ 32 ∧ c.2.length < 2 ^ 32)
    (room : ∀ c ∈ claims,
      2 * (pathKey (keccakScheme keccak.hash) secure c.1).length + 2 < 2 ^ k) :
    (∃ proofs, generateProof secureHash sha256 goldilocks limit (keccakScheme keccak.hash) secure
        securityBits (2 ^ k) s.2 (claims.map Prod.fst) =
          .ok (proofs, rootHash (keccakScheme keccak.hash) s.2) ∧
      verifyProof secureHash limit (claims.map Prod.snd) (claims.map Prod.fst)
        (rootHash (keccakScheme keccak.hash) s.2)
        (proofs, rootHash (keccakScheme keccak.hash) s.2) = .ok true ∧
      Bound ⟨keccak.hash, keccak.size⟩ (claims.map Prod.snd) (claims.map Prod.fst)
        (rootHash (keccakScheme keccak.hash) s.2) proofs) ∨
    generateProof secureHash sha256 goldilocks limit (keccakScheme keccak.hash) secure securityBits
      (2 ^ k) s.2 (claims.map Prod.fst) = .error .diverges := by
  obtain ⟨params, _, set, _⟩ := computeParameters_usable securityBits tall
  have ends := mapM_ends fun c member => proveKey_ends session distinct writable secureHash sha256
    tall few draws safe (kept c member) (sizes c member) (room c member)
  have keyed : (claims.map Prod.fst).mapM (proveKey secureHash sha256 goldilocks limit
      (keccakScheme keccak.hash) secure securityBits (2 ^ k) s.2) =
      claims.mapM fun c => proveKey secureHash sha256 goldilocks limit (keccakScheme keccak.hash)
        secure securityBits (2 ^ k) s.2 c.1 := List.mapM_map
  unfold generateProof
  simp only [set, keyed, bind, Except.bind]
  rcases ends with ⟨proofs, run, all⟩ | open'
  · left
    refine ⟨proofs, by rw [run], ?_, ?_⟩
    · refine verifyEach_all fun p member => ?_
      obtain ⟨i, inside, rfl⟩ := List.getElem_of_mem member
      exact (all.get (by rw [all.length_eq]; exact inside) inside).accepted
    · refine ⟨by rw [List.length_map, all.length_eq], fun i p at' => ?_⟩
      obtain ⟨c, named, proved⟩ := each_at all.flip at'
      rw [Carries, List.getElem?_map, List.getElem?_map, named, proved.key, proved.value]
      exact ⟨rfl, rfl, proved.root⟩
  · right
    rw [open']

end Batches

/- Two short keys, in traces of sixteen rows. -/
section Sample

def shortEntry : SampleEntry :=
  ⟨[1, 2, 3, 4], sampleBytes 97, by unfold EntryOk keccakLimits; decide⟩

def otherEntry : SampleEntry :=
  ⟨[1, 2, 5, 6], sampleBytes 98, by unfold EntryOk keccakLimits; decide⟩

@[irreducible] def shortTrie : MerklePatriciaTrie :=
  sampleKeeper.insert otherEntry (sampleKeeper.insert shortEntry emptyTrie)

theorem shortTrie_session : Session sampleKeeper ([shortEntry, otherEntry], shortTrie) := by
  unfold shortTrie
  exact (Relation.ReflTransGen.single (.insert [] emptyTrie shortEntry)).tail
    (.insert [shortEntry] _ otherEntry)

theorem shortTrie_facts : Separates spreadKeccak.hash (storedEncodings shortTrie) ∧
    ∀ node ∈ storedEncodings shortTrie, node.length < 2 ^ 32 := by
  unfold shortTrie Separates
  decide +kernel

theorem shortTrie_proves {key : Bytes} (listed : key ∈ [shortEntry.key, otherEntry.key]) :
    ∃ result, proveKey counting counting goldilocks 40 (keccakScheme spreadKeccak.hash) false 80 16
      shortTrie key = .ok result := by
  have returns : (proveKey counting counting goldilocks 40 (keccakScheme spreadKeccak.hash) false 80
      16 shortTrie key).toOption.isSome = true := by
    unfold shortTrie
    rw [List.mem_pair] at listed
    rcases listed with rfl | rfl
    · decide +kernel
    · decide +kernel
  obtain ⟨result, some⟩ := Option.isSome_iff_exists.mp returns
  exact ⟨result, ok_of_toOption some⟩

theorem stark_batches_bound_sample : ∃ proofs root,
    generateProof counting counting goldilocks 40 (keccakScheme spreadKeccak.hash) false 80 16
      shortTrie [shortEntry.key, otherEntry.key] = .ok (proofs, root) ∧
    verifyProof counting 40 [shortEntry.value, otherEntry.value] [shortEntry.key, otherEntry.key] root
      (proofs, root) = .ok true ∧
    Bound ⟨spreadKeccak.hash, spreadKeccak.size⟩ [shortEntry.value, otherEntry.value]
      [shortEntry.key, otherEntry.key] root proofs := by
  obtain ⟨distinct, writable⟩ := shortTrie_facts
  have kept : ∀ c ∈ [(shortEntry.key, shortEntry.value), (otherEntry.key, otherEntry.value)],
      lastKept [shortEntry, otherEntry] c.1 = some c.2 := by decide
  rcases @stark_batches_bound spreadKeccak false _ shortTrie_session distinct writable counting
    counting 40 4 80 (by decide) (by decide) (by decide) (by decide)
    [(shortEntry.key, shortEntry.value), (otherEntry.key, otherEntry.value)] kept (by decide)
    (by decide) with
    ⟨proofs, made, accepted, bound⟩ | open'
  · exact ⟨proofs, _, made, accepted, bound⟩
  · have never : generateProof counting counting goldilocks 40 (keccakScheme spreadKeccak.hash) false
        80 16 shortTrie [shortEntry.key, otherEntry.key] = .error .diverges := open'
    obtain ⟨params, set⟩ : ∃ params, computeParameters 80 16 = .ok params := ⟨_, rfl⟩
    obtain ⟨batch, returns⟩ := generateProof_returns counting counting goldilocks 40 set
      fun key listed => shortTrie_proves listed
    cases returns.symm.trans never

end Sample

end StarkSessions
