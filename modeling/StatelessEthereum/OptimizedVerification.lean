import StatelessEthereum.OptimizedAgreement

/- The verifier of the deduplicated Verkle proof
   (verifier/verkle_verification_optimized.py) beside the plain verifier. -/
namespace OptimizedVerification
open PythonError BigEndian PutLog KzgSetup KzgScheme CommitmentScheme HashScheme IdealCurve Interning
open VerkleOpenings VerkleCompleteness MultiproofSharing VerkleOptimized OptimizedAgreement
open VerkleSerialization
open VerkleChecks (Claim keyClaims levelClaims levelIndex claimedOpenings claimedFrom)
open VerkleVerification (cofactorPoint checkWitness)
open VerkleTrees hiding insert get getKeyChunks
open StemTree hiding insert lookup
open VerkleStorage VerkleKey VerkleRuns
variable {Point G1 G2 FQ12 : Type}

/-- The dictionary from the positions of keys to their path entries, the last
    assignment first. -/
def keyToPathInfo (proofPaths : List PathInfo) : List (Int × PathInfo) :=
  proofPaths.foldl (fun found pathInfo => (pathInfo.keyIdx, pathInfo) :: found) []

/-- `commitment_list[commitment_indices[i]]` -/
def commitmentAt (commitmentList : List Point) (commitmentIndices : List Int) (i : Nat) :
    Except PyError Point :=
  match (commitmentIndices[i]?).bind (listIndex commitmentList) with
  | some comm => .ok comm
  | none => .error .indexError

/-- Where a level is opened, `last` being the level of the suffix. -/
def levelIdx (stem : Bytes) (suffix : UInt8) (last level : Nat) : Except PyError Nat :=
  if level = last then .ok suffix.toNat
  else if level + 1 = last then .ok 2
  else match stem[level]? with
    | some idx => .ok idx.toNat
    | none => .error .indexError

section Verifier
variable (backend : Backend Point G1 G2 FQ12) (setup : SetupObject G1 G2)

def levelComm (commitmentList : List Point) (commitmentIndices : List Int) (root : Point)
    (level : Nat) : Except PyError Point :=
  if level = 0 then .ok root else commitmentAt commitmentList commitmentIndices (level - 1)

/-- What it is opened to: the hash of the next commitment, or at last the value. -/
def levelLeaf (commitmentList : List Point) (commitmentIndices : List Int) (v level : Nat) :
    Except PyError Nat :=
  if level < commitmentIndices.length then do
    let nextComm ← commitmentAt commitmentList commitmentIndices level
    .ok (backend.format.hashPointToField nextComm setup.modulus)
  else .ok v

def checkLevel (commitmentList : List Point) (rootBytes : Bytes) (path : List Nat) (root : Point)
    (stem : Bytes) (suffix : UInt8) (v : Nat) (commitmentIndices : List Int) (pairingCheck : FQ12)
    (level : Nat) : Except PyError FQ12 := do
  let idx ← levelIdx stem suffix commitmentIndices.length level
  let rFactor ← deriveRFactorHash backend.sha256 rootBytes path level CURVE_ORDER
  let comm ← levelComm commitmentList commitmentIndices root level
  let leaf ← levelLeaf backend setup commitmentList commitmentIndices v level
  let value ← VerkleVerification.multiply backend backend.curve.generator
    ((setup.modulus : Int) - leaf)
  let commMinusLeafTimesR ← VerkleVerification.multiply backend
    (backend.curve.add (backend.curve.lift comm) value) rFactor
  let zComm ← cofactorPoint backend setup idx
  .ok (backend.curve.mul pairingCheck (backend.curve.pairing zComm commMinusLeafTimesR))

/-- The body of the loop over the keys. -/
def checkKey (proof : DeduplicatedProof Point) (rootBytes : Bytes) (root : Point)
    (pairingCheck : FQ12) (entry : (Bytes × Nat × List Nat) × Nat) : Except PyError FQ12 :=
  let ((key, v, path), keyIdx) := entry
  match key[31]? with
  | none => .error .indexError
  | some suffix =>
    match (keyToPathInfo proof.proofPaths).lookup (keyIdx : Int) with
    | none => .error (.keyError "")
    | some pathInfo =>
      (List.range (pathInfo.commitmentIndices.length + 1)).foldlM
        (checkLevel backend setup proof.commitments rootBytes path root (key.take 31) suffix v
          pathInfo.commitmentIndices) pairingCheck

def verifyProof [DecidableEq FQ12] (values keys : List Bytes) (root : Point)
    (proof : DeduplicatedProof Point × Point) : Except PyError Bool := do
  let (deduplicatedProof, witness) := proof
  let pathsForR ← keys.mapM (keyToPath setup.width)
  let rootBytes ← backend.format.generateRootBytes root
  let _ ← deriveR backend.sha256 rootBytes pathsForR CURVE_ORDER
  let pairingCheck ← (keys.zip ((values.map ofBytes).zip pathsForR)).zipIdx.foldlM
    (checkKey backend setup deduplicatedProof rootBytes root) backend.curve.one
  let pairingCheck ← checkWitness backend setup witness pairingCheck
  let o := backend.curve.finalExponentiate pairingCheck
  if o = backend.curve.one then .ok true
  else .error (.assertionError "Multiproof pairing check failed.")

end Verifier

/- One key. -/
section Levels
variable {backend : Backend Point G1 G2 FQ12} {setup : SetupObject G1 G2}
  {commitmentList : List Point} {rootBytes : Bytes} {path : List Nat} {root : Point} {stem : Bytes}
  {suffix : UInt8} {v : Nat} {commitmentIndices : List Int}

theorem commitmentAt_ok {i : Nat} {comm : Point} :
    commitmentAt commitmentList commitmentIndices i = .ok comm ↔
      (commitmentIndices[i]?).bind (listIndex commitmentList) = some comm := by
  unfold commitmentAt
  cases (commitmentIndices[i]?).bind (listIndex commitmentList) <;> simp

theorem readIndices_cons (entries : List Point) (i : Int) (indices : List Int) :
    readIndices entries (i :: indices) = (do
      let first ← listIndex entries i
      let rest ← readIndices entries indices
      pure (first :: rest)) := by
  rw [readIndices, List.mapM_cons]
  rfl

theorem readIndices_places {entries : List Point} {indices : List Int} {commitments : List Point} :
    readIndices entries indices = some commitments ↔ commitments.length = indices.length ∧
      ∀ i < indices.length, (indices[i]?).bind (listIndex entries) = commitments[i]? := by
  induction indices generalizing commitments with
  | nil =>
    constructor
    · intro read
      cases read
      simp
    · rintro ⟨size, _⟩
      rw [List.eq_nil_of_length_eq_zero size]
      rfl
  | cons index indices ih =>
    rw [readIndices_cons]
    constructor
    · intro read
      obtain ⟨first, here, read⟩ := Option.bind_eq_some_iff.mp read
      obtain ⟨rest, later, read⟩ := Option.bind_eq_some_iff.mp read
      cases read
      obtain ⟨size, places⟩ := ih.mp later
      refine ⟨by rw [List.length_cons, size, List.length_cons], fun i inside => ?_⟩
      cases i with
      | zero => exact here
      | succ i => exact places i (Nat.lt_of_succ_lt_succ inside)
    · rintro ⟨size, places⟩
      cases commitments with
      | nil => cases size
      | cons first rest =>
        have here : listIndex entries index = some first := places 0 (Nat.succ_pos _)
        have later := ih.mpr ⟨Nat.succ.inj size, fun i inside =>
          places (i + 1) (Nat.succ_lt_succ inside)⟩
        rw [here, later]
        rfl

variable (c : List Point) (chunks : List Nat)

theorem checkLevel_resolved (read : readIndices commitmentList commitmentIndices = some c) {level : Nat}
    {comm : Point} {rest : List Point} (here : (root :: c).drop level = comm :: rest) (pairingCheck : FQ12) :
    checkLevel backend setup commitmentList rootBytes path root stem suffix v commitmentIndices
        pairingCheck level =
      levelIdx stem suffix c.length level >>= fun idx =>
        VerkleVerification.checkLevel backend setup rootBytes path level idx comm
          ((rest.head?).elim v fun next => backend.format.hashPointToField next setup.modulus)
          pairingCheck := by
  obtain ⟨size, places⟩ := readIndices_places.mp read
  have sizes := congrArg List.length here
  rw [List.length_drop, List.length_cons, List.length_cons] at sizes
  have current : levelComm commitmentList commitmentIndices root level = .ok comm := by
    have head : (root :: c)[level]? = some comm := by rw [← List.head?_drop, here, List.head?_cons]
    cases level with
    | zero =>
      cases head
      rfl
    | succ level =>
      rw [levelComm, if_neg (Nat.succ_ne_zero level), Nat.succ_sub_one, commitmentAt_ok,
        places level (by omega)]
      exact head
  have below : levelLeaf backend setup commitmentList commitmentIndices v level =
      .ok ((rest.head?).elim v
        fun next => backend.format.hashPointToField next setup.modulus) := by
    cases rest with
    | nil =>
      rw [List.length_nil] at sizes
      rw [levelLeaf, if_neg (by omega)]
      rfl
    | cons next rest =>
      rw [List.length_cons] at sizes
      have inside : level < commitmentIndices.length := by omega
      have entry : commitmentAt commitmentList commitmentIndices level = .ok next := by
        rw [commitmentAt_ok, places level inside, ← List.getElem?_cons_succ (a := root),
          ← List.head?_drop, ← List.drop_drop, here]
        rfl
      rw [levelLeaf, if_pos inside, entry]
      rfl
  simp only [checkLevel, ← size, current, below, VerkleVerification.checkLevel]
  rfl

/-- The levels from one on, where the bytes that serve as indices are the chunks. -/
theorem checkLevels_resolved (read : readIndices commitmentList commitmentIndices = some c)
    (steers : ∀ i, i + 1 < c.length → stem[i]?.map UInt8.toNat = chunks[i]?) {level : Nat}
    {comm : Point} {rest : List Point} (here : (root :: c).drop level = comm :: rest)
    (pairingCheck : FQ12) :
    (List.range' level (rest.length + 1)).foldlM (checkLevel backend setup commitmentList rootBytes
        path root stem suffix v commitmentIndices) pairingCheck =
      VerkleVerification.checkLevels backend setup rootBytes path chunks suffix.toNat v level comm
        rest pairingCheck := by
  induction rest generalizing level comm pairingCheck with
  | nil =>
    have sizes := congrArg List.length here
    rw [List.length_drop, List.length_cons, List.length_singleton] at sizes
    have last : level = c.length := by omega
    rw [List.length_nil, List.range'_succ, List.range'_zero, List.foldlM_cons,
      checkLevel_resolved c read here, levelIdx, if_pos last]
    simp only [bind, Except.bind, List.head?_nil, Option.elim_none, VerkleVerification.checkLevels,
      List.foldlM_nil, pure, Except.pure]
    cases VerkleVerification.checkLevel backend setup rootBytes path level suffix.toNat comm v
      pairingCheck <;> rfl
  | cons next rest ih =>
    have sizes := congrArg List.length here
    rw [List.length_drop, List.length_cons, List.length_cons, List.length_cons] at sizes
    have below : (root :: c).drop (level + 1) = next :: rest := by
      rw [← List.drop_drop, here]
      rfl
    rw [List.length_cons, List.range'_succ, List.foldlM_cons, checkLevel_resolved c read here,
      levelIdx, if_neg (by omega), VerkleVerification.checkLevels, List.head?_cons, Option.elim_some]
    by_cases last : rest = []
    · rw [if_pos last, if_pos (by rw [last, List.length_nil] at sizes; omega)]
      simp only [bind, Except.bind]
      cases VerkleVerification.checkLevel backend setup rootBytes path level 2 comm
          (backend.format.hashPointToField next setup.modulus) pairingCheck with
      | error e => rfl
      | ok out => exact ih below out
    · have occupied := List.length_pos_iff.mpr last
      rw [if_neg last, if_neg (by omega), ← steers level (by omega)]
      cases stem[level]? with
      | none => rfl
      | some idx =>
        simp only [bind, Except.bind, Option.map_some]
        cases VerkleVerification.checkLevel backend setup rootBytes path level idx.toNat comm
            (backend.format.hashPointToField next setup.modulus) pairingCheck with
        | error e => rfl
        | ok out => exact ih below out

end Levels

/- All keys. -/

def commitmentsOf (proof : DeduplicatedProof Point) (keyIdx : Nat) : Option (List Point) :=
  ((keyToPathInfo proof.proofPaths).lookup (keyIdx : Int)).bind fun pathInfo =>
    readIndices proof.commitments pathInfo.commitmentIndices

/-- A proof with the commitments of each of so many keys written out. -/
def expand (proof : DeduplicatedProof Point) (count : Nat) : Option (List (List Point)) :=
  (List.range count).mapM (commitmentsOf proof)

theorem foldlM_passes {ε σ α : Type} {f : σ → α → Except ε σ} {as : List α} {s out : σ}
    (run : as.foldlM f s = .ok out) : ∀ a ∈ as, ∃ s s', f s a = .ok s' := by
  induction as generalizing s with
  | nil => simp
  | cons a as ih =>
    rw [List.foldlM_cons] at run
    obtain ⟨next, here, run⟩ := ok_of_bind run
    exact List.forall_mem_cons.mpr ⟨⟨s, next, here⟩, ih run⟩

theorem foldlM_each {ε σ α β : Type} {f : σ → α → Except ε σ} {g : σ → β → Except ε σ}
    {as : List α} {bs : List β} (each : List.Forall₂ (fun a b => ∀ s, f s a = g s b) as bs) (s : σ) :
    as.foldlM f s = bs.foldlM g s := by
  induction each generalizing s with
  | nil => rfl
  | cons here _ ih =>
    rw [List.foldlM_cons, List.foldlM_cons, here]
    cases g s _ with
    | error e => rfl
    | ok out => exact ih out

theorem mapM_option_each {α β : Type} {f : α → Option β} {as : List α} {bs : List β} :
    as.mapM f = some bs ↔ List.Forall₂ (fun a b => f a = some b) as bs := by
  induction as generalizing bs with
  | nil => cases bs <;> simp
  | cons a as ih => cases bs <;> simp [ih, List.mapM_cons, Option.bind_eq_some_iff]

theorem mapM_option_some {α β : Type} {f : α → Option β} {as : List α}
    (each : ∀ a ∈ as, ∃ b, f a = some b) : ∃ bs, as.mapM f = some bs := by
  induction as with
  | nil => exact ⟨[], rfl⟩
  | cons a as ih =>
    obtain ⟨⟨b, here⟩, later⟩ := List.forall_mem_cons.mp each
    obtain ⟨bs, rest⟩ := ih later
    exact ⟨b :: bs, by simp [here, rest]⟩

section Keys
variable {backend : Backend Point G1 G2 FQ12} {setup : SetupObject G1 G2}
  {proof : DeduplicatedProof Point} {rootBytes : Bytes} {root : Point}

theorem checkKey_resolved {key : Bytes} {v keyIdx : Nat} {path chunks : List Nat}
    {suffix : UInt8} {c : List Point} (own : commitmentsOf proof keyIdx = some c)
    (byte : key[31]? = some suffix)
    (cuts : VerkleVerification.getKeyChunks key setup.width = .ok chunks)
    (last : chunks.getLast? = some suffix.toNat)
    (steers : ∀ i, i + 1 < c.length → (key.take 31)[i]?.map UInt8.toNat = chunks.dropLast[i]?)
    (pairingCheck : FQ12) :
    checkKey backend setup proof rootBytes root pairingCheck ((key, v, path), keyIdx) =
      VerkleVerification.checkKey backend setup rootBytes root pairingCheck (c, key, v, path) := by
  obtain ⟨pathInfo, found, read⟩ := Option.bind_eq_some_iff.mp own
  have size := (readIndices_places.mp read).1
  simp only [checkKey, byte, found, VerkleVerification.checkKey, cuts, last, bind, Except.bind]
  rw [List.range_eq_range', ← size]
  exact checkLevels_resolved c chunks.dropLast read steers rfl pairingCheck

theorem checkKey_passes {entry : (Bytes × Nat × List Nat) × Nat} {pairingCheck out : FQ12}
    (run : checkKey backend setup proof rootBytes root pairingCheck entry = .ok out) :
    ∃ c, commitmentsOf proof entry.2 = some c := by
  obtain ⟨⟨key, v, path⟩, keyIdx⟩ := entry
  simp only [checkKey] at run
  cases byte : key[31]? with
  | none =>
    rw [byte] at run
    cases run
  | some suffix =>
    cases found : (keyToPathInfo proof.proofPaths).lookup (keyIdx : Int) with
    | none =>
      rw [byte, found] at run
      cases run
    | some pathInfo =>
      rw [byte, found] at run
      have each : ∀ i < pathInfo.commitmentIndices.length,
          ∃ comm, commitmentAt proof.commitments pathInfo.commitmentIndices i = .ok comm := by
        intro i inside
        obtain ⟨s, s', level⟩ := foldlM_passes run i (List.mem_range.mpr (Nat.lt_succ_of_lt inside))
        obtain ⟨_, _, level⟩ := ok_of_bind level
        obtain ⟨_, _, level⟩ := ok_of_bind level
        obtain ⟨_, _, level⟩ := ok_of_bind level
        obtain ⟨_, leaf, level⟩ := ok_of_bind level
        rw [levelLeaf, if_pos inside] at leaf
        obtain ⟨comm, known, _⟩ := ok_of_bind leaf
        exact ⟨comm, known⟩
      rw [commitmentsOf, found, Option.bind_some]
      apply mapM_option_some
      intro position member
      obtain ⟨i, inside, here⟩ := List.getElem_of_mem member
      obtain ⟨comm, known⟩ := each i inside
      rw [commitmentAt_ok, List.getElem?_eq_getElem inside, here] at known
      exact ⟨comm, known⟩

variable [DecidableEq FQ12]

/-- Where the bytes that serve as indices are the chunks, the verdict on a proof
    is that on the proof it stands for. -/
theorem verdict_expanded {values : List Bytes} {keys : List Word} {proofs : List (List Point)}
    (expands : expand proof (min keys.length values.length) = some proofs)
    (serves : ∀ (i : Nat) (key : Word) (c : List Point), keys[i]? = some key → proofs[i]? = some c →
      ∃ suffix chunks, key.bytes[31]? = some suffix ∧
        VerkleVerification.getKeyChunks key.bytes setup.width = .ok chunks ∧
        chunks.getLast? = some suffix.toNat ∧
        ∀ i, i + 1 < c.length → (key.bytes.take 31)[i]?.map UInt8.toNat = chunks.dropLast[i]?)
    (witness : Point) :
    verifyProof backend setup values (keys.map Word.bytes) root (proof, witness) = .ok true ↔
      VerkleVerification.verifyProof backend setup values (keys.map Word.bytes) root
        (proofs, witness) = .ok true := by
  have each := mapM_option_each.mp expands
  simp only [verifyProof, VerkleVerification.verifyProof]
  cases paths : (keys.map Word.bytes).mapM (keyToPath setup.width) with
  | error e => simp [bind, Except.bind]
  | ok pathsForR =>
    have count : pathsForR.length = keys.length := by
      rw [← (mapM_inv paths).length_eq, List.length_map]
    have same (rootBytes : Bytes) (start : FQ12) :
        ((keys.map Word.bytes).zip ((values.map ofBytes).zip pathsForR)).zipIdx.foldlM
          (checkKey backend setup proof rootBytes root) start =
        (proofs.zip ((keys.map Word.bytes).zip ((values.map ofBytes).zip pathsForR))).foldlM
          (VerkleVerification.checkKey backend setup rootBytes root) start := by
      apply foldlM_each
      have sizes := each.length_eq
      rw [List.length_range] at sizes
      rw [List.forall₂_iff_get]
      refine ⟨by simp; omega, fun i inside inside' pairingCheck => ?_⟩
      simp only [List.length_zipIdx, List.length_zip, List.length_map] at inside
      simp only [List.get_eq_getElem, List.getElem_zipIdx, List.getElem_zip, List.getElem_map,
        Nat.zero_add]
      have first : i < keys.length := by omega
      have second : i < proofs.length := by omega
      have own : commitmentsOf proof i = some proofs[i] := by
        obtain ⟨c, here, own⟩ := each_at each (List.getElem?_range (by omega : i < _))
        rw [List.getElem?_eq_getElem second] at here
        cases here
        exact own
      obtain ⟨suffix, chunks, byte, cuts, last, steers⟩ := serves i keys[i] proofs[i]
        (List.getElem?_eq_getElem first) (List.getElem?_eq_getElem second)
      exact checkKey_resolved own byte cuts last steers pairingCheck
    cases backend.format.generateRootBytes root with
    | error e => simp [bind, Except.bind]
    | ok rootBytes =>
      simp only [bind, Except.bind, same]
      cases deriveR backend.sha256 rootBytes pathsForR CURVE_ORDER with
      | error e => simp
      | ok r =>
        simp only
        cases (proofs.zip ((keys.map Word.bytes).zip ((values.map ofBytes).zip pathsForR))).foldlM
            (VerkleVerification.checkKey backend setup rootBytes root) backend.curve.one with
        | error e => simp
        | ok pairingCheck =>
          simp only
          cases checkWitness backend setup witness pairingCheck with
          | error e => simp
          | ok final =>
            by_cases one : backend.curve.finalExponentiate final = backend.curve.one <;> simp [one]

/-- A proof that is accepted resolves for every key with a value. -/
theorem accepted_expands {values keys : List Bytes} {witness : Point}
    (accepted : verifyProof backend setup values keys root (proof, witness) = .ok true) :
    ∃ proofs, expand proof (min keys.length values.length) = some proofs := by
  obtain ⟨pathsForR, paths, accepted⟩ := ok_of_bind accepted
  obtain ⟨rootBytes, _, accepted⟩ := ok_of_bind accepted
  obtain ⟨r, _, accepted⟩ := ok_of_bind accepted
  obtain ⟨pairingCheck, loop, _⟩ := ok_of_bind accepted
  have count := (mapM_inv paths).length_eq
  apply mapM_option_some
  intro i member
  have inside := List.mem_range.mp member
  let entries := keys.zip ((values.map ofBytes).zip pathsForR)
  have short : i < entries.length := by
    simp only [entries, List.length_zip, List.length_map]
    omega
  obtain ⟨s, s', here⟩ := foldlM_passes loop (entries[i], i)
    (List.mem_zipIdx_iff_getElem?.mpr (List.getElem?_eq_getElem short))
  exact checkKey_passes here

end Keys

/- What the prover makes. -/

theorem lookup_listed {κ β : Type} [DecidableEq κ] {l : List (κ × β)}
    (distinct : (l.map Prod.fst).Nodup) {e : κ × β} (member : e ∈ l) : l.lookup e.1 = some e.2 := by
  obtain ⟨front, back, rfl⟩ := List.append_of_mem member
  rw [List.lookup_eq_some_iff]
  refine ⟨front, back, rfl, fun other earlier => ?_⟩
  rw [List.map_append, List.map_cons] at distinct
  have apart := (List.nodup_append.mp distinct).2.2 other.1 (List.mem_map_of_mem earlier) e.1
    List.mem_cons_self
  exact bne_iff_ne.mpr (Ne.symm apart)

theorem numbered_lookup {proofPaths : List PathInfo}
    (numbered : proofPaths.map PathInfo.keyIdx = (List.range proofPaths.length).map Int.ofNat)
    {i : Nat} {pathInfo : PathInfo} (here : proofPaths[i]? = some pathInfo) :
    (keyToPathInfo proofPaths).lookup (i : Int) = some pathInfo := by
  have number : pathInfo.keyIdx = (i : Int) := by
    have at_place := congrArg (fun l => l[i]?) numbered
    have inside := (List.getElem?_eq_some_iff.mp here).1
    simp only [List.getElem?_map, here, Option.map_some, List.getElem?_range inside] at at_place
    exact Option.some.inj at_place
  have listed : keyToPathInfo proofPaths =
      (proofPaths.map fun pathInfo => (pathInfo.keyIdx, pathInfo)).reverse := by
    rw [keyToPathInfo, List.foldl_flip_cons_eq_append, List.append_nil]
  rw [listed, ← number]
  refine lookup_listed (e := (pathInfo.keyIdx, pathInfo)) ?_ ?_
  · rw [List.map_reverse, List.nodup_reverse, List.map_map]
    have distinct := (@List.nodup_range proofPaths.length).map fun _ _ => Int.ofNat.inj
    exact numbered ▸ distinct
  · rw [List.mem_reverse]
    exact List.mem_map_of_mem (f := fun pathInfo => (pathInfo.keyIdx, pathInfo))
      (List.mem_of_getElem? here)

theorem expand_numbered {proof : DeduplicatedProof Point} {proofs : List (List Point)}
    (numbered : proof.proofPaths.map PathInfo.keyIdx =
      (List.range proof.proofPaths.length).map Int.ofNat)
    (each : List.Forall₂ (fun commitments (pathInfo : PathInfo) =>
      readIndices proof.commitments pathInfo.commitmentIndices = some commitments) proofs
        proof.proofPaths) : expand proof proofs.length = some proofs := by
  rw [expand, mapM_option_each, List.forall₂_iff_get]
  refine ⟨List.length_range, fun i inside inside' => ?_⟩
  obtain ⟨pathInfo, here, read⟩ := each_at each (List.getElem?_eq_getElem inside')
  rw [List.get_eq_getElem, List.getElem_range, commitmentsOf, numbered_lookup numbered here,
    Option.bind_some, read, List.get_eq_getElem]

section Prover
variable [DecidableEq Point] {backend : Backend Point G1 G2 FQ12} {setup : SetupObject G1 G2}

theorem openKeys_numbers {db : Store Bytes Bytes} {rootBytes : Bytes} {root : TreeNode Point}
    {total after : List Int} {table table' : Table Point Point} {keyIdx : Nat}
    {entries : List (Bytes × List Nat)} {paths : List PathInfo}
    (run : openKeys backend setup db rootBytes root total table keyIdx entries =
      .ok (after, table', paths)) :
    paths.map PathInfo.keyIdx = (List.range' keyIdx paths.length).map Int.ofNat := by
  induction entries generalizing total table keyIdx paths with
  | nil =>
    cases run
    rfl
  | cons e entries ih =>
    obtain ⟨state, _, run⟩ := ok_of_bind run
    obtain ⟨⟨after', table'', rest⟩, later, run⟩ := ok_of_bind run
    cases run
    rw [List.map_cons, ih later, List.length_cons, List.range'_succ, List.map_cons]
    rfl

variable {k bits : Nat} {w : ZMod CURVE_ORDER} {tree : VerkleTree Point}
  {kids : Fin (kzgScheme backend setup).width → Trie (kzgScheme backend setup).width}
  [NeZero (kzgScheme backend setup).width] (grown : Grown backend setup k w bits tree kids)
include grown

theorem openKeys_interned (rootBytes : Bytes) {root : TreeNode Point}
    (object : ObjectOf (kzgScheme backend setup) tree.disk.db root (.inner kids)) {keys : List Word}
    (found : ∀ key ∈ keys, stored backend setup kids key ≠ none)
    (cut : ∀ key ∈ keys,
      CutByBytes setup.width key.bytes ((keyProof backend setup kids key).length - 1))
    {total after : List Int} {table table' : Table Point Point} {keyIdx : Nat}
    {paths : List PathInfo}
    (run : openKeys backend setup tree.disk.db rootBytes root total table keyIdx
      (keys.map fun key => (key.bytes, pathOf setup.width key.bytes)) = .ok (after, table', paths)) :
    table' = (internAll id table (keys.flatMap (keyProof backend setup kids))).1 := by
  induction keys generalizing total table keyIdx paths with
  | nil =>
    cases run
    rfl
  | cons key keys ih =>
    obtain ⟨state, here, run⟩ := ok_of_bind run
    obtain ⟨⟨after', table'', rest⟩, later, run⟩ := ok_of_bind run
    cases run
    obtain ⟨own, found⟩ := List.forall_mem_cons.mp found
    obtain ⟨own', cut⟩ := List.forall_mem_cons.mp cut
    rw [openKey_follows grown rootBytes (pathOf setup.width key.bytes) own own' object] at here
    cases plain : VerkleProof.openKey backend setup tree.disk.db rootBytes root total
        (key.bytes, keyProof backend setup kids key, pathOf setup.width key.bytes) with
    | error e =>
      rw [plain] at here
      cases here
    | ok more =>
      rw [plain] at here
      cases here
      rw [ih found cut later, List.flatMap_cons, internAll_append]
      rfl

theorem generateProof_deduplicates {keys : List Word}
    (found : ∀ key ∈ keys, stored backend setup kids key ≠ none)
    (cut : ∀ key ∈ keys,
      CutByBytes setup.width key.bytes ((keyProof backend setup kids key).length - 1))
    {witness : Point} (plain : VerkleProof.generateProof backend setup tree (keys.map Word.bytes) =
      .ok (keys.map (keyProof backend setup kids), witness)) :
    ∃ proof, generateProof backend setup tree (keys.map Word.bytes) = .ok (proof, witness) ∧
      proof.commitments = (keys.map (keyProof backend setup kids)).flatten.eraseDups ∧
      expand proof keys.length = some (keys.map (keyProof backend setup kids)) := by
  obtain ⟨rootBytes, root, object, loop, loop'⟩ := aggregate_keys grown keys
  obtain ⟨⟨proofs, total⟩, gathered, plain⟩ := ok_of_bind plain
  obtain ⟨made, generated, plain⟩ := ok_of_bind plain
  cases plain
  rw [loop'] at gathered
  obtain ⟨after, run, same⟩ := ok_of_bind gathered
  cases same
  obtain ⟨table, paths, runs, _, each⟩ := openKeys_follows grown rootBytes object keys found cut run
    (sound_empty id) 0
  have numbers := openKeys_numbers runs
  have interned := openKeys_interned grown rootBytes object found cut runs
  refine ⟨⟨table.entries, paths⟩, ?_, ?_, ?_⟩
  · simp only [generateProof, loop, runs, generated, bind, Except.bind]
  · rw [interned, internAll_distinct, List.flatMap_def]
  · rw [← @List.length_map _ _ keys (keyProof backend setup kids)]
    refine expand_numbered (by rw [numbers, List.range_eq_range']) ?_
    rw [List.forall₂_map_left_iff]
    exact each.imp fun _ _ => leads_read

end Prover

/- The verdict. -/
section Verdict
variable {backend : Backend Point G1 G2 FQ12} {setup : SetupObject G1 G2}

/-- The bytes of a key serve as its chunks, as far as so many commitments go. -/
def Serves (width count : Nat) (key : Bytes) : Prop :=
  ∃ suffix chunks, key[31]? = some suffix ∧
    VerkleVerification.getKeyChunks key width = .ok chunks ∧
    chunks.getLast? = some suffix.toNat ∧
    ∀ i, i + 1 < count → (key.take 31)[i]?.map UInt8.toNat = chunks.dropLast[i]?

theorem serves_byte (key : Word) (count : Nat) : Serves 256 count key.bytes := by
  have size := key.size
  have inside : 31 < key.bytes.length := by omega
  refine ⟨key.bytes[31], keyChunks 256 key.bytes, List.getElem?_eq_getElem inside, rfl, ?_, ?_⟩
  · rw [chunks_byte, List.getLast?_eq_getElem?, List.length_map, size, List.getElem?_map,
      List.getElem?_eq_getElem inside, Option.map_some]
  · intro i _
    rw [chunks_byte, ← List.map_dropLast, List.getElem?_map, List.dropLast_eq_take, size]

theorem serves_cut {width bits : Nat} (aligned : Aligned width bits) {key : Word} {count : Nat}
    (cut : CutByBytes width key.bytes (count - 1)) (short : count ≤ (keyChunks width key.bytes).length) :
    Serves width count key.bytes := by
  have positive : width ≠ 0 := Nat.ne_of_gt (width_positive aligned.toCuts)
  have some : width.log2 ≠ 0 := bits_eq aligned.toCuts ▸ Nat.ne_of_gt aligned.positive
  have inside : 31 < key.bytes.length := by
    have size := key.size
    omega
  obtain ⟨front, last⟩ := cut
  refine ⟨key.bytes[31], keyChunks width key.bytes, List.getElem?_eq_getElem inside,
    by rw [VerkleVerification.getKeyChunks, if_neg positive, if_neg some], ?_, ?_⟩
  · rw [last, List.getElem?_eq_getElem inside, Option.map_some]
  · intro i early
    have taken : ((keyChunks width key.bytes).take (count - 1))[i]? = (keyChunks width key.bytes)[i]? :=
      List.getElem?_take_of_lt (by omega)
    have there : i < ((keyChunks width key.bytes).take (count - 1)).length := by
      rw [List.length_take]
      omega
    have back : (keyChunks width key.bytes).dropLast[i]? = (keyChunks width key.bytes)[i]? := by
      rw [List.dropLast_eq_take, List.getElem?_take_of_lt (by omega)]
    rw [back, ← taken, ← List.getElem?_map, List.getElem?_eq_getElem there,
      List.prefix_iff_getElem?.mp front i there]

/-- A walk that is cut by bytes is served by bytes. -/
theorem proof_serves {k bits : Nat} {w : ZMod CURVE_ORDER} {tree : VerkleTree Point}
    {kids : Fin (kzgScheme backend setup).width → Trie (kzgScheme backend setup).width}
    [NeZero (kzgScheme backend setup).width] (grown : Grown backend setup k w bits tree kids)
    {key : Word} (found : stored backend setup kids key ≠ none)
    (cut : CutByBytes setup.width key.bytes ((keyProof backend setup kids key).length - 1)) :
    Serves setup.width (keyProof backend setup kids key).length key.bytes := by
  have aligned : Aligned (kzgScheme backend setup).width bits := grown.ready.aligned
  have count : (keyProof backend setup kids key).length + 1 =
      (keyStations backend setup kids key).length := proofOf_length grown found
  have short : (keyStations backend setup kids key).length ≤
      (stemOf (kzgScheme backend setup).width key).length + 2 := stations_length _ _ _ _
  have chunks : (keyChunks setup.width key.bytes).length =
      depth (kzgScheme backend setup).width + 2 := keyChunks_length aligned.toCuts key.bytes
  have stem := stemOf_length aligned.toCuts key
  exact serves_cut grown.ready.aligned cut (by omega)

theorem generateProof_proofs {k bits : Nat} {w : ZMod CURVE_ORDER} {tree : VerkleTree Point}
    {kids : Fin (kzgScheme backend setup).width → Trie (kzgScheme backend setup).width}
    [NeZero (kzgScheme backend setup).width] (grown : Grown backend setup k w bits tree kids)
    {keys : List Word} (found : ∀ key ∈ keys, stored backend setup kids key ≠ none)
    {proof : List (List Point) × Point}
    (run : VerkleProof.generateProof backend setup tree (keys.map Word.bytes) = .ok proof) :
    proof = (keys.map (keyProof backend setup kids), proof.2) := by
  obtain ⟨_, _, _, _, _, plain, _⟩ := aggregate_ok grown keys found
  obtain ⟨⟨proofs, total⟩, gathered, run⟩ := ok_of_bind run
  obtain ⟨witness, _, run⟩ := ok_of_bind run
  cases run
  cases plain.symm.trans gathered
  rfl

variable [DecidableEq FQ12]

/-- At width 256 the verifier accepts a deduplicated proof if and only if all its
    indices resolve and the plain verifier accepts the proof it stands for. -/
theorem optimized_accepts_iff (width : setup.width = 256) (values : List Bytes) (keys : List Word)
    (root : Point) (proof : DeduplicatedProof Point) (witness : Point) :
    verifyProof backend setup values (keys.map Word.bytes) root (proof, witness) = .ok true ↔
      ∃ proofs, expand proof (min keys.length values.length) = some proofs ∧
        VerkleVerification.verifyProof backend setup values (keys.map Word.bytes) root
          (proofs, witness) = .ok true := by
  have verdict {proofs : List (List Point)}
      (expands : expand proof (min keys.length values.length) = some proofs) :=
    @verdict_expanded _ _ _ _ backend setup proof root _ values keys proofs expands
      (fun _ key c _ _ => width ▸ serves_byte key c.length) witness
  constructor
  · intro accepted
    obtain ⟨proofs, expands⟩ := accepted_expands accepted
    rw [List.length_map] at expands
    exact ⟨proofs, expands, (verdict expands).mp accepted⟩
  · rintro ⟨proofs, expands, accepted⟩
    exact (verdict expands).mpr accepted

end Verdict

/- Two keys whose suffix nodes are one commitment, at width 256. -/
section Shared

def lowLogs : Logarithms lowCurve (ZMod CURVE_ORDER) := tabledLogs lowPoints

theorem lowLogs_lossless : lowLogs.Lossless := @tabledLogs_lossless lowPoints (by decide)

def byteSetup : SetupObject Nat Nat :=
  (verkleKzgSetup lowCurve 5 256).toOption.getD ⟨⟨0, 0, 0, [], [], []⟩, [], [], [], []⟩

theorem byteSetup_made : verkleKzgSetup lowCurve 5 256 = .ok byteSetup := by
  obtain ⟨setup, _, _, _, made, _⟩ := supported_ready (Or.inr rfl) lowCurve 5
  rw [byteSetup, made]
  rfl

/-- The constant polynomial of the hash of the shared commitment. -/
def sharedRoot : Point2D := ⟨fq (ofBytes sharedHash % CURVE_ORDER), fq 0⟩

theorem shared_term {A : Type} [CommRing A] [Algebra (ZMod CURVE_ORDER) A]
    (w : ZMod CURVE_ORDER) (n : Nat) (s : A) {o : Openings.Opening (ZMod CURVE_ORDER) A}
    (exact : o.value = algebraMap _ A o.leaf) : o.term w n s = 0 := by
  rw [Openings.Opening.term, exact, sub_self, zero_mul, mul_zero]

theorem shared_checked {setup : SetupObject Nat Nat} (made : verkleKzgSetup lowCurve 5 256 = .ok setup) :
    VerkleVerification.verifyProof (plainBackend lowCurve sampleLogFloor lowSha256 lowZlib) setup
      [sampleValue.bytes, sampleValue.bytes] [lowKey.bytes, nextKey.bytes] sharedRoot
      ([[sharedPoint], [sharedPoint]], ⟨fq 0, fq 0⟩) = .ok true := by
  obtain ⟨k, w, bits, standard, ready⟩ := setup_ready (Or.inr rfl) made
  have positive := width_neZero (plainBackend lowCurve sampleLogFloor lowSha256 lowZlib) ready
  have faithful := plainFormat_faithful lowSha256 lowZlib_lossless
  have order : setup.modulus = CURVE_ORDER := ready.lays.order
  let scheme := kzgScheme (plainBackend lowCurve sampleLogFloor lowSha256 lowZlib) setup
  let logs : Logarithms (plainBackend lowCurve sampleLogFloor lowSha256 lowZlib).curve
    (ZMod CURVE_ORDER) := lowLogs
  have residue (p : Point2D) : scheme.hashPointToField p < CURVE_ORDER :=
    Nat.lt_of_lt_of_eq (faithful.hash_residue p setup.modulus (by rw [order]; decide)) order
  obtain ⟨rootBytes, bytes⟩ := faithful.root_bytes sharedRoot
  let claims (item : List Point2D × Word × Bytes) : List (Claim Point2D) :=
    [⟨sharedRoot, 2, scheme.hashPointToField sharedPoint⟩,
      ⟨sharedPoint, (suffixOf scheme.width item.2.1).val, ofBytes sampleValue.bytes⟩]
  have hashed : scheme.hashPointToField sharedPoint = ofBytes sharedHash % CURVE_ORDER := by
    have digest : lowSha256 (HashScheme.pointText sharedPoint) = sharedHash := by decide
    rw [← order, ← digest]
    rfl
  have lifts : lowCurve.lift sharedRoot = ofBytes sharedHash % CURVE_ORDER ∧
      lowCurve.lift sharedPoint = ofBytes sampleValue.bytes ∧ lowCurve.lift ⟨fq 0, fq 0⟩ = 0 := by
    decide
  have verdict := VerkleChecks.verifyProof_iff (standard_logs logs standard) ready residue bytes
    [([sharedPoint], lowKey, sampleValue.bytes), ([sharedPoint], nextKey, sampleValue.bytes)] claims
    (by simp [claims, keyClaims, levelClaims, levelIndex, scheme])
    (by
      have small : ofBytes sampleValue.bytes ≤ CURVE_ORDER := by decide
      simp [small]) ⟨fq 0, fq 0⟩
  refine verdict.mpr ?_
  have top : lowLogs.log (lowCurve.lift ⟨fq 0, fq 0⟩) = 0 := by
    rw [lifts.2.2]
    exact Nat.cast_zero
  have exact (item : List Point2D × Word × Bytes) : Openings.total w (2 ^ k) ((5 : Nat) : ZMod CURVE_ORDER)
      (claimedOpenings logs setup rootBytes item.2.1 (claims item)) = 0 := by
    have first : lowLogs.log (lowCurve.lift sharedRoot) =
        ((scheme.hashPointToField sharedPoint : Int) : ZMod CURVE_ORDER) := by
      rw [lifts.1, hashed, Int.cast_natCast]
      rfl
    have second : lowLogs.log (lowCurve.lift sharedPoint) =
        ((ofBytes sampleValue.bytes : Int) : ZMod CURVE_ORDER) := by
      rw [lifts.2.1, Int.cast_natCast]
      rfl
    simp only [claimedOpenings, claims, claimedFrom, Openings.total_cons, Openings.total_nil]
    rw [shared_term w (2 ^ k) _ first, shared_term w (2 ^ k) _ second, add_zero, add_zero]
  have log : logs.log ((plainBackend lowCurve sampleLogFloor lowSha256 lowZlib).curve.lift
      ⟨fq 0, fq 0⟩) = 0 := top
  rw [log, mul_zero]
  simp only [List.map_cons, List.map_nil, List.sum_cons, List.sum_nil, exact, add_zero]

end Shared

/-- An index that leads nowhere is refused, a shared commitment accepted. -/
theorem optimized_accepts_iff_sample :
    verifyProof (plainBackend lowCurve sampleLogFloor lowSha256 lowZlib) byteSetup
        [sampleValue.bytes] [lowKey.bytes] lowRoot (⟨[lowExtension], [⟨0, [0, 1]⟩]⟩, lowRoot) ≠
      .ok true ∧
    verifyProof (plainBackend lowCurve sampleLogFloor lowSha256 lowZlib) byteSetup
        [sampleValue.bytes, sampleValue.bytes] [lowKey.bytes, nextKey.bytes] sharedRoot
        (⟨[sharedPoint], [⟨0, [0]⟩, ⟨1, [-1]⟩]⟩, ⟨fq 0, fq 0⟩) = .ok true := by
  constructor
  · intro accepted
    obtain ⟨proofs, expands, _⟩ := (optimized_accepts_iff (made_width byteSetup_made)
      [sampleValue.bytes] [lowKey] lowRoot ⟨[lowExtension], [⟨0, [0, 1]⟩]⟩ lowRoot).mp accepted
    simp [expand, commitmentsOf, keyToPathInfo, readIndices, listIndex] at expands
  · have expands : expand (⟨[sharedPoint], [⟨0, [0]⟩, ⟨1, [-1]⟩]⟩ : DeduplicatedProof Point2D) 2 =
        some [[sharedPoint], [sharedPoint]] := by decide
    exact (optimized_accepts_iff (made_width byteSetup_made) [sampleValue.bytes, sampleValue.bytes]
      [lowKey, nextKey] sharedRoot ⟨[sharedPoint], [⟨0, [0]⟩, ⟨1, [-1]⟩]⟩ ⟨fq 0, fq 0⟩).mpr
        ⟨_, expands, shared_checked byteSetup_made⟩

/- Whole runs. -/

/-- The bytes of keys serve as their chunks: always at width 256. -/
def AllServe (scheme : Scheme Point) (tree : VerkleTree Point) (keys : List Word) : Prop :=
  scheme.width = 256 ∨ ∀ key ∈ keys, ReadByBytes scheme tree key.bytes

section Runs
variable {width : Nat} (supported : width = 16 ∨ width = 256) (curve : Curve Point2D G1 G2 FQ12)
  (logFloor : Nat → Nat) (sha256 : Bytes → Bytes) {zlib : Zlib} (lossless : zlib.Lossless)
  {secret : Nat} {setup : SetupObject G1 G2}
  (made : verkleKzgSetup curve secret width = .ok setup) (run : List (Word × Word))
  (valid : (insertRun (plainScheme curve logFloor sha256 zlib setup) run).2.disk.db.Consistent)
include supported lossless made valid

theorem run_serves {keys : List Word} (occupied : keys ≠ [])
    (inserted : ∀ key ∈ keys, lastInserted run key ≠ none)
    (serve : AllServe (plainScheme curve logFloor sha256 zlib setup)
      (insertRun (plainScheme curve logFloor sha256 zlib setup) run).2 keys) :
    ∃ k w bits kids,
      ∃ (_ : NeZero (kzgScheme (plainBackend curve logFloor sha256 zlib) setup).width),
      Standard curve secret setup k w ∧
      Grown (plainBackend curve logFloor sha256 zlib) setup k w bits
        (insertRun (plainScheme curve logFloor sha256 zlib setup) run).2 kids ∧
      (∀ key, stored (plainBackend curve logFloor sha256 zlib) setup kids key = lastInserted run key) ∧
      rootCommitment (insertRun (plainScheme curve logFloor sha256 zlib setup) run).2 =
        nodePoint (kzgScheme (plainBackend curve logFloor sha256 zlib) setup) (.inner kids) ∧
      ∀ key ∈ keys, CutByBytes setup.width key.bytes
        ((keyProof (plainBackend curve logFloor sha256 zlib) setup kids key).length - 1) := by
  obtain ⟨k, w, bits, standard, ready⟩ := setup_ready supported made
  have positive := width_neZero (plainBackend curve logFloor sha256 zlib) ready
  obtain ⟨kids, grown, _, answers, root⟩ := run_grown (plainBackend curve logFloor sha256 zlib)
    (plainFormat_faithful sha256 lossless) ready (inserted_run occupied inserted) valid
  refine ⟨k, w, bits, kids, positive, standard, grown, answers, root, fun key member => ?_⟩
  rcases serve with wide | read
  · exact cut_byte grown wide (by rw [answers]; exact inserted key member)
  · exact (readByBytes_iff grown key).mp (read key member)

/-- The deduplicated proof has the witness of the plain proof and each of its
    commitments once, in the order in which they come first; written out it is the
    plain proof. -/
theorem optimized_deduplicates (keys : List Word) (occupied : keys ≠ [])
    (inserted : ∀ key ∈ keys, lastInserted run key ≠ none)
    (serve : AllServe (plainScheme curve logFloor sha256 zlib setup)
      (insertRun (plainScheme curve logFloor sha256 zlib setup) run).2 keys) :
    ∃ proof proofs witness,
      generateProof (plainBackend curve logFloor sha256 zlib) setup
        (insertRun (plainScheme curve logFloor sha256 zlib setup) run).2 (keys.map Word.bytes) =
          .ok (proof, witness) ∧
      VerkleProof.generateProof (plainBackend curve logFloor sha256 zlib) setup
        (insertRun (plainScheme curve logFloor sha256 zlib setup) run).2 (keys.map Word.bytes) =
          .ok (proofs, witness) ∧
      proof.commitments = proofs.flatten.eraseDups ∧ expand proof keys.length = some proofs := by
  obtain ⟨k, w, bits, kids, positive, standard, grown, answers, _, cut⟩ := run_serves supported curve
    logFloor sha256 lossless made run valid occupied inserted serve
  have found (key : Word) (member : key ∈ keys) :
      stored (plainBackend curve logFloor sha256 zlib) setup kids key ≠ none := by
    rw [answers]
    exact inserted key member
  obtain ⟨_, rootBytes, total, _, _, plain, totals, _⟩ := aggregate_ok grown keys found
  obtain ⟨witness, made'⟩ := @generateWitness_ok _ _ _ _
    (plainBackend curve logFloor sha256 zlib) _ _ _ _ standard _ totals
  have whole : VerkleProof.generateProof (plainBackend curve logFloor sha256 zlib) setup
      (insertRun (plainScheme curve logFloor sha256 zlib setup) run).2 (keys.map Word.bytes) =
        .ok (keys.map (keyProof (plainBackend curve logFloor sha256 zlib) setup kids), witness) := by
    simp only [VerkleProof.generateProof, plain, made', bind, Except.bind]
  obtain ⟨proof, optimized, distinct, expands⟩ := generateProof_deduplicates grown found cut whole
  exact ⟨proof, _, witness, optimized, whole, distinct, expands⟩

/-- The deduplicated proof of inserted keys is accepted for their stored values,
    over groups of prime order with a pairing and for any secret. -/
theorem optimized_complete [DecidableEq FQ12] (logs : Logarithms curve (ZMod CURVE_ORDER))
    (exact : logs.Lossless) (entries : List (Word × Word)) (occupied : entries ≠ [])
    (values : ∀ e ∈ run, 0 < ofBytes e.2.bytes ∧ ofBytes e.2.bytes < CURVE_ORDER)
    (inserted : ∀ e ∈ entries, lastInserted run e.1 = some e.2)
    (serve : AllServe (plainScheme curve logFloor sha256 zlib setup)
      (insertRun (plainScheme curve logFloor sha256 zlib setup) run).2 (entries.map Prod.fst)) :
    ∃ root proof,
      rootCommitment (insertRun (plainScheme curve logFloor sha256 zlib setup) run).2 = some root ∧
      generateProof (plainBackend curve logFloor sha256 zlib) setup
        (insertRun (plainScheme curve logFloor sha256 zlib setup) run).2
        (entries.map fun e => e.1.bytes) = .ok proof ∧
      verifyProof (plainBackend curve logFloor sha256 zlib) setup
        (entries.map fun e => e.2.bytes) (entries.map fun e => e.1.bytes) root proof = .ok true := by
  have present : ∀ key ∈ entries.map Prod.fst, lastInserted run key ≠ none := by
    intro key member
    obtain ⟨e, inside, rfl⟩ := List.mem_map.mp member
    rw [inserted e inside]
    exact Option.some_ne_none _
  obtain ⟨k, w, bits, kids, positive, standard, grown, answers, root, cut⟩ := run_serves supported
    curve logFloor sha256 lossless made run valid (by simpa using occupied) present serve
  let value (key : Word) := (lastInserted run key).getD key
  have known (e : Word × Word) (member : e ∈ entries) : value e.1 = e.2 := by
    simp only [value, inserted e member, Option.getD_some]
  have found (key : Word) (member : key ∈ entries.map Prod.fst) :
      stored (plainBackend curve logFloor sha256 zlib) setup kids key = some (value key) := by
    obtain ⟨e, inside, rfl⟩ := List.mem_map.mp member
    rw [answers, known e inside, inserted e inside]
  have there (key : Word) (member : key ∈ entries.map Prod.fst) :
      stored (plainBackend curve logFloor sha256 zlib) setup kids key ≠ none := by
    rw [found key member]
    exact Option.some_ne_none _
  obtain ⟨p, plain, point, generated, accepted⟩ := proof_accepted (standard_logs logs standard)
    exact grown (entries.map Prod.fst) value found (by
      intro key member
      obtain ⟨e, inside, rfl⟩ := List.mem_map.mp member
      rw [known e inside]
      exact Nat.le_of_lt (values _ (lastInserted_member (inserted e inside))).2)
  have shape := generateProof_proofs grown there generated
  rw [shape] at generated accepted
  obtain ⟨proof, optimized, _, expands⟩ := generateProof_deduplicates grown there cut generated
  have claimed : (entries.map Prod.fst).map (fun key => (value key).bytes) =
      entries.map fun e => e.2.bytes := by
    rw [List.map_map]
    apply List.map_congr_left
    intro e inside
    rw [Function.comp_apply, known e inside]
  rw [claimed] at accepted
  have serves (i : Nat) (key : Word) (c : List Point2D) (here : (entries.map Prod.fst)[i]? = some key)
      (own : ((entries.map Prod.fst).map
        (keyProof (plainBackend curve logFloor sha256 zlib) setup kids))[i]? = some c) :
      Serves setup.width c.length key.bytes := by
    rw [List.getElem?_map, here, Option.map_some] at own
    cases own
    have member := List.mem_of_getElem? here
    exact proof_serves grown (there key member) (cut key member)
  have count : min (entries.map Prod.fst).length (entries.map fun e => e.2.bytes).length =
      (entries.map Prod.fst).length := by simp
  rw [← count] at expands
  have verdict := (verdict_expanded expands serves plain.2).mpr accepted
  rw [List.map_map] at optimized verdict
  exact ⟨p, _, root.trans point, optimized, verdict⟩

end Runs

section Sample

theorem low_serves (keys : List Word) (listed : ∀ key ∈ keys, key ∈ lowRun.map Prod.fst) :
    AllServe (plainScheme lowCurve sampleLogFloor lowSha256 lowZlib lowSetup)
      (insertRun (plainScheme lowCurve sampleLogFloor lowSha256 lowZlib lowSetup) lowRun).2 keys :=
  Or.inr fun key member => lowRun_read (listed key member)

end Sample

theorem optimized_deduplicates_sample : ∃ proof proofs witness,
    generateProof (plainBackend lowCurve sampleLogFloor lowSha256 lowZlib) lowSetup
      (insertRun (plainScheme lowCurve sampleLogFloor lowSha256 lowZlib lowSetup) lowRun).2
        [lowKey.bytes, nextKey.bytes, lowKey.bytes] = .ok (proof, witness) ∧
    VerkleProof.generateProof (plainBackend lowCurve sampleLogFloor lowSha256 lowZlib) lowSetup
      (insertRun (plainScheme lowCurve sampleLogFloor lowSha256 lowZlib lowSetup) lowRun).2
        [lowKey.bytes, nextKey.bytes, lowKey.bytes] = .ok (proofs, witness) ∧
    proof.commitments = proofs.flatten.eraseDups ∧ expand proof 3 = some proofs :=
  optimized_deduplicates (Or.inl rfl) lowCurve sampleLogFloor lowSha256 lowZlib_lossless
    lowSetup_made lowRun lowRun_facts.1 [lowKey, nextKey, lowKey] (List.cons_ne_nil _ _)
    (by decide) (low_serves _ (by decide))

theorem optimized_complete_sample : ∃ root proof,
    rootCommitment (insertRun (plainScheme lowCurve sampleLogFloor lowSha256 lowZlib lowSetup)
      lowRun).2 = some root ∧
    generateProof (plainBackend lowCurve sampleLogFloor lowSha256 lowZlib) lowSetup
      (insertRun (plainScheme lowCurve sampleLogFloor lowSha256 lowZlib lowSetup) lowRun).2
        [lowKey.bytes, nextKey.bytes] = .ok proof ∧
    verifyProof (plainBackend lowCurve sampleLogFloor lowSha256 lowZlib) lowSetup
      [sampleValue.bytes, sampleValue.bytes] [lowKey.bytes, nextKey.bytes] root proof = .ok true :=
  optimized_complete (Or.inl rfl) lowCurve sampleLogFloor lowSha256 lowZlib_lossless
    lowSetup_made lowRun lowRun_facts.1 lowLogs lowLogs_lossless lowRun (List.cons_ne_nil _ _)
    (by decide) (by decide) (low_serves _ (by decide))

end OptimizedVerification
