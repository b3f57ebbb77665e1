import StatelessEthereum.MerkleSoundness

/- What the verdicts of the plain verifier say of the root and of the keys. An
   accepted walk is a chain of nodes along the key; the root hash only enters
   where the first node is long enough to be hashed, and a batch is only walked
   as far as the proof has node lists. -/
namespace MerkleVerdicts
open PythonError BigEndian NibblePaths MerkleNodes MerkleForms MerkleTrees MerkleVerifiers
open MerkleRuns MerkleSoundness

/-- The nodes lead along the digits to the value, each naming the next. -/
inductive Spells (hash : Bytes → Bytes) (v : Bytes) : List Bytes → List Nat → Prop where
  | leaf {e : Bytes} {rest : List Bytes} {path : NibblePath}
      (decoded : Node.decode e = .ok (.leaf path (.bytes v))) :
      Spells hash v (e :: rest) path.remaining
  | stop {e : Bytes} {rest : List Bytes} {branches : List PyObj}
      (decoded : Node.decode e = .ok (.branch branches (.bytes v))) :
      Spells hash v (e :: rest) []
  | extension {e next : Bytes} {rest : List Bytes} {path : NibblePath} {digits : List Nat}
      (decoded : Node.decode e =
        .ok (.extension path (.bytes (intoReferenceFromEncoded hash next))))
      (below : Spells hash v (next :: rest) digits) :
      Spells hash v (e :: next :: rest) (path.remaining ++ digits)
  | branch {e next : Bytes} {rest : List Bytes} {branches : List PyObj} {data : PyObj} {i : Nat}
      {digits : List Nat} (decoded : Node.decode e = .ok (.branch branches data))
      (slot : branches[i]? = some (.bytes (intoReferenceFromEncoded hash next)))
      (present : intoReferenceFromEncoded hash next ≠ [])
      (below : Spells hash v (next :: rest) digits) :
      Spells hash v (e :: next :: rest) (i :: digits)

section Walks
variable {hash : Bytes → Bytes} {v : Bytes}

theorem spells_of_walk {nodes : List Bytes} {path : NibblePath}
    (accepted : walkProof hash v nodes path = .ok true) : Spells hash v nodes path.remaining := by
  induction nodes generalizing path with
  | nil => simp [walkProof] at accepted
  | cons e rest ih =>
    obtain ⟨node, decoded, checked⟩ := walk_step accepted
    cases node with
    | leaf nodePath data =>
      obtain ⟨same, rfl⟩ := checked
      rw [← same]
      exact .leaf decoded
    | extension nodePath nextRef =>
      obtain ⟨covered, next, more, rfl, rfl, later⟩ := checked
      have below := ih later
      rw [NibblePath.remaining_consume] at below
      obtain ⟨digits, whole⟩ := covered
      rw [← whole] at below ⊢
      rw [← NibblePath.remaining_length, List.drop_left] at below
      exact .extension decoded below
    | branch branches data =>
      rcases checked with ⟨ended, rfl⟩ | ⟨going, idx, next, more, digit, rfl, held, some, later⟩
      · rw [(NibblePath.len_eq_zero_iff path).mp ended]
        exact .stop decoded
      · have below := ih later
        rw [NibblePath.remaining_consume] at below
        cases shape : path.remaining with
        | nil => exact absurd ((NibblePath.len_eq_zero_iff path).mpr shape) going
        | cons i digits =>
          rw [NibblePath.atIndex_zero shape, Except.ok.injEq] at digit
          subst digit
          rw [shape] at below
          have slot : branches[i]? = .some (.bytes (intoReferenceFromEncoded hash next)) := by
            unfold entry at held
            split at held
            · rename_i found
              cases held
              exact found
            · cases held
          exact .branch decoded slot some below

theorem walk_of_spells {nodes : List Bytes} {digits : List Nat}
    (spells : Spells hash v nodes digits) {path : NibblePath} (same : path.remaining = digits) :
    walkProof hash v nodes path = .ok true := by
  induction spells generalizing path with
  | leaf decoded =>
    rename_i nodePath
    have equal := (NibblePath.eq_iff nodePath path).mpr same.symm
    simp [walkProof, decoded, equal, PyObj.isBytes]
  | stop decoded =>
    have ended := (NibblePath.len_eq_zero_iff path).mpr same
    simp [walkProof, decoded, ended, PyObj.isBytes]
  | extension decoded below ih =>
    rename_i nodePath digits
    have starts := (NibblePath.startsWith_iff path nodePath).mpr ⟨digits, same.symm⟩
    have rest : (path.consume nodePath.len).remaining = digits := by
      rw [NibblePath.remaining_consume, same, ← NibblePath.remaining_length, List.drop_left]
    rw [walkProof, decoded]
    simp [starts, linked, PyObj.isBytes, ih rest]
  | branch decoded slot present below ih =>
    rename_i branches data i digits
    have going : path.len ≠ 0 := by
      rw [Ne, NibblePath.len_eq_zero_iff, same]
      simp
    have digit := NibblePath.atIndex_zero same
    have rest : (path.consume 1).remaining = digits := by
      rw [NibblePath.remaining_consume, same]
      rfl
    have size : (intoReferenceFromEncoded hash _).length ≠ 0 := fun none =>
      present (List.length_eq_zero_iff.mp none)
    rw [walkProof, decoded]
    simp [going, digit, entry, slot, PyObj.len, linked, PyObj.isBytes, ih rest, present, bind,
      Except.bind]

theorem walk_iff_spells {nodes : List Bytes} {path : NibblePath} :
    walkProof hash v nodes path = .ok true ↔ Spells hash v nodes path.remaining := by
  constructor
  · exact spells_of_walk
  · intro spells
    exact walk_of_spells spells rfl

end Walks

theorem verifySingle_iff (keccak : Keccak) (first : Bytes) (rest : List Bytes) (key v : Bytes)
    (root : Bytes) :
    verifySingleProof keccak.hash (first :: rest) key v (some root) = .ok true ↔
      (32 ≤ first.length → keccak.hash first = root) ∧
        Spells keccak.hash v (first :: rest) (nibbles key) := by
  obtain ⟨path, parsed, _, digits⟩ := ofBytes_hex key 0
  rw [List.drop_zero] at digits
  have walked : walkProof keccak.hash v (first :: rest) path = .ok true ↔
      Spells keccak.hash v (first :: rest) (nibbles key) := digits ▸ walk_iff_spells
  simp only [verifySingleProof, parsed, bind, Except.bind, intoReferenceFromEncoded]
  by_cases long : 32 ≤ first.length
  · by_cases same : keccak.hash first = root
    · simp [long, same, walked]
    · simp [long, same, keccak.size, printHex, asReference]
  · have short : first.length ≠ 32 := by omega
    simp [long, short, walked]

/-- One proof is accepted under one root only, unless its first node is too
    short to be hashed: such a chain is accepted under every root. -/
theorem root_unique_iff (keccak : Keccak) (proofNodes : List Bytes) (key value : Bytes) :
    (∀ r₁ r₂ : Bytes, r₁.length = 32 → r₂.length = 32 →
      verifySingleProof keccak.hash proofNodes key value (some r₁) = .ok true →
      verifySingleProof keccak.hash proofNodes key value (some r₂) = .ok true → r₁ = r₂) ↔
    (∃ first ∈ proofNodes.head?, 32 ≤ first.length) ∨
      ¬ Spells keccak.hash value proofNodes (nibbles key) := by
  cases proofNodes with
  | nil =>
    constructor
    · intro _
      right
      intro spells
      cases spells
    · intro _ r₁ r₂ _ _ accepted
      simp [verifySingleProof] at accepted
  | cons first rest =>
    simp only [verifySingle_iff, List.head?_cons, Option.mem_def, Option.some.injEq,
      exists_eq_left']
    constructor
    · intro unique
      by_contra both
      push Not at both
      obtain ⟨short, spells⟩ := both
      have free (r : Bytes) : 32 ≤ first.length → keccak.hash first = r := by
        intro long
        omega
      have same := unique (List.replicate 32 0) (List.replicate 32 1) rfl rfl
        ⟨free _, spells⟩ ⟨free _, spells⟩
      simp at same
    · rintro (long | none) r₁ r₂ _ _ ⟨first₁, spells⟩ ⟨first₂, _⟩
      · rw [← first₁ long, first₂ long]
      · exact absurd spells none

/-- The leaf of the empty key with a short value is accepted under any root. -/
theorem root_not_unique :
    ¬ ∀ (proofNodes : List Bytes) (key value r₁ r₂ : Bytes), r₁.length = 32 → r₂.length = 32 →
      verifySingleProof MerkleRuns.sampleKeccak.hash proofNodes key value (some r₁) = .ok true →
      verifySingleProof MerkleRuns.sampleKeccak.hash proofNodes key value (some r₂) = .ok true →
      r₁ = r₂ := by
  intro always
  have same := always [[0xc2, 0x20, 0x76]] [] [0x76] (List.replicate 32 0) (List.replicate 32 1)
    rfl rfl (by decide) (by decide)
  simp at same

/- Batches. -/

theorem verifyEach_iff (hash : Bytes → Bytes) (root : Option Bytes)
    (entries : List (List Bytes × Bytes × Bytes)) :
    verifyEach hash root entries = .ok true ↔
      ∀ e ∈ entries, verifySingleProof hash e.1 e.2.1 e.2.2 root = .ok true := by
  induction entries with
  | nil => simp [verifyEach]
  | cons e entries ih =>
    simp only [verifyEach, List.forall_mem_cons, ← ih]
    cases verifySingleProof hash e.1 e.2.1 e.2.2 root with
    | error _ => simp [bind, Except.bind]
    | ok accepted => cases accepted <;> simp [bind, Except.bind]

theorem verifyProof_iff (hash : Bytes → Bytes) (values keys : List Bytes) (root : Option Bytes)
    (commitments : List (List Bytes)) (witness : Bytes) :
    verifyProof hash values keys root (commitments, witness) = .ok true ↔
      some witness = root ∧ ∀ (i : Nat) (proofNodes key value : _), commitments[i]? = some proofNodes →
        keys[i]? = some key → values[i]? = some value →
        verifySingleProof hash proofNodes key value root = .ok true := by
  have loop := verifyEach_iff hash root (commitments.zip (keys.zip values))
  simp only [List.mem_iff_getElem?, Prod.forall, List.getElem?_zip_eq_some] at loop
  by_cases same : some witness = root
  · simp only [verifyProof, same, ne_eq, not_true_eq_false, ↓reduceIte, loop, true_and]
    constructor
    · intro each i proofNodes key value list held claimed
      exact each proofNodes key value ⟨i, list, held, claimed⟩
    · rintro each proofNodes key value ⟨i, list, held, claimed⟩
      exact each i proofNodes key value list held claimed
  · cases root <;> simp [verifyProof, same, printHex, asReference, bind, Except.bind]

/-- An accepted batch covers every key exactly when the proof has a list for
    every key, or what it has is rejected anyway. -/
theorem batch_covers_iff (hash : Bytes → Bytes) (values keys : List Bytes) (root : Option Bytes)
    (commitments : List (List Bytes)) (witness : Bytes) (sizes : values.length = keys.length) :
    (verifyProof hash values keys root (commitments, witness) = .ok true →
      ∀ (i : Nat) (key value : Bytes), keys[i]? = some key → values[i]? = some value →
        ∃ proofNodes, commitments[i]? = some proofNodes ∧
          verifySingleProof hash proofNodes key value root = .ok true) ↔
    keys.length ≤ commitments.length ∨ some witness ≠ root ∨
      ∃ (i : Nat) (proofNodes : List Bytes) (key value : Bytes), commitments[i]? = some proofNodes ∧
        keys[i]? = some key ∧ values[i]? = some value ∧
        verifySingleProof hash proofNodes key value root ≠ .ok true := by
  rw [verifyProof_iff]
  constructor
  · intro covers
    by_contra none
    push Not at none
    obtain ⟨few, same, each⟩ := none
    have inside : commitments.length < values.length := by omega
    obtain ⟨proofNodes, listed, _⟩ := covers ⟨same, each⟩ commitments.length
      keys[commitments.length] values[commitments.length] (List.getElem?_eq_getElem few)
      (List.getElem?_eq_getElem inside)
    simp at listed
  · rintro enough ⟨same, each⟩ i key value held claimed
    rcases enough with enough | apart | ⟨j, proofNodes, k, v, listed, heldJ, claimedJ, rejected⟩
    · obtain ⟨inside, _⟩ := List.getElem?_eq_some_iff.mp held
      have listed : commitments[i]? = some commitments[i] := List.getElem?_eq_getElem (by omega)
      exact ⟨_, listed, each i _ key value listed held claimed⟩
    · exact absurd same apart
    · exact absurd (each j proofNodes k v listed heldJ claimedJ) rejected

def keyRoot : Bytes := MerkleTrees.rootHash (keccakScheme spreadKeccak.hash) keyTrie

theorem batch_covers_sample :
    keyRoot.length = 32 ∧
    ∀ (i : Nat) (key value : Bytes), [sampleBytes 107, sampleBytes 108][i]? = some key →
      [sampleBytes 97, sampleBytes 98][i]? = some value →
        ∃ proofNodes, [keyProof 107, keyProof 108][i]? = some proofNodes ∧
          verifySingleProof spreadKeccak.hash proofNodes key value (some keyRoot) = .ok true := by
  have facts : keyRoot.length = 32 ∧ verifyProof spreadKeccak.hash [sampleBytes 97, sampleBytes 98]
      [sampleBytes 107, sampleBytes 108] (some keyRoot) ([keyProof 107, keyProof 108], keyRoot) =
        .ok true := by
    unfold keyRoot keyProof keyTrie
    decide +kernel
  have covers := (batch_covers_iff spreadKeccak.hash [sampleBytes 97, sampleBytes 98]
    [sampleBytes 107, sampleBytes 108] (some keyRoot) [keyProof 107, keyProof 108] keyRoot rfl).mpr
      (Or.inl (Nat.le_refl 2))
  exact ⟨facts.1, covers facts.2⟩

/-- A proof without node lists is accepted for any claim. -/
theorem batch_not_covered :
    ¬ ∀ (values keys : List Bytes) (root : Option Bytes) (commitments : List (List Bytes))
      (witness : Bytes), values.length = keys.length →
      verifyProof MerkleRuns.sampleKeccak.hash values keys root (commitments, witness) = .ok true →
      ∀ (i : Nat) (key value : Bytes), keys[i]? = some key → values[i]? = some value →
        ∃ proofNodes, commitments[i]? = some proofNodes ∧
          verifySingleProof MerkleRuns.sampleKeccak.hash proofNodes key value root = .ok true := by
  intro always
  obtain ⟨proofNodes, listed, _⟩ := always [[0x76]] [[0x6b]] (some (List.replicate 32 0)) []
    (List.replicate 32 0) rfl (by decide) 0 [0x6b] [0x76] rfl rfl
  simp at listed

end MerkleVerdicts
