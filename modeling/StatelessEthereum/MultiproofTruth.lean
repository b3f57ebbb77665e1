import StatelessEthereum.MultiproofChecks
import StatelessEthereum.MultiproofOpenings
import StatelessEthereum.VerkleBinding

/- The verdict on the multiproof of one key, in the tree or not: the walk of the
   prover compares no stems, and where it ends early nothing is claimed. -/
namespace MultiproofTruth
open Polynomial PythonError BigEndian EvaluationDomain Fft PutLog HashScheme KzgSetup KzgScheme
open IdealCurve Openings VerkleOpenings VerkleChecks VerkleCompleteness VerkleBinding VerkleMultiproof
open MultiproofOpenings MultiproofChecks
open VerkleTrees hiding insert get getKeyChunks
open StemTree hiding insert lookup
open VerkleStorage VerkleKey VerkleRuns VerkleSerialization
variable {Point G1 G2 FQ12 A : Type} [CommRing A] [Algebra (ZMod CURVE_ORDER) A]

/- Where a walk ends that compares no stems. -/
section Landing
variable {width : Nat}

def landing : Trie width → List (Fin width) →
    Option (List (Fin width) × List (Fin width) × (Fin width → Option Word))
  | .empty, _ => none
  | .group stem slots, k => some (k, stem, slots)
  | .inner _, [] => none
  | .inner kids, i :: k => landing (kids i) k

theorem landing_lookup (t : Trie width) (k : List (Fin width)) (x : Fin width) :
    StemTree.lookup t k x = match landing t k with
      | none => none
      | some (rest, stem, slots) => if rest = stem then slots x else none := by
  induction t generalizing k with
  | empty => rfl
  | group stem slots => rfl
  | inner kids ih =>
    cases k with
    | nil => rfl
    | cons i k => exact ih i k

theorem landing_slots {t : Trie width} {k rest stem : List (Fin width)}
    {slots : Fin width → Option Word} (met : landing t k = some (rest, stem, slots)) :
    ∃ path, ∀ x, StemTree.lookup t path x = slots x := by
  induction t generalizing k with
  | empty => cases met
  | group stem' slots' =>
    cases met
    exact ⟨stem, fun x => if_pos rfl⟩
  | inner kids ih =>
    cases k with
    | nil => cases met
    | cons i k =>
      obtain ⟨path, found⟩ := ih i met
      exact ⟨i :: path, found⟩

end Landing

/- What the verifier makes of a true traversal. -/
section Verdict
variable {w : ZMod CURVE_ORDER} {n : Nat} {s : A} {factor : Nat → ZMod CURVE_ORDER}

/-- What the claimed value is off at the suffix stations, the first at a level. -/
noncomputable def strayed (w : ZMod CURVE_ORDER) (n : Nat) (s : A) (factor : Nat → ZMod CURVE_ORDER)
    (value : Nat) : Nat → List (Station Point) → A
  | _, [] => 0
  | level, station :: rest =>
    (if station.type = .suffix then algebraMap (ZMod CURVE_ORDER) A
        (factor level * ((station.leaf : ZMod CURVE_ORDER) - value)) *
          aeval s (cofactor w n station.index) else 0) +
      strayed w n s factor value (level + 1) rest

theorem claims_strayed {curve : Curve Point G1 G2 FQ12} {logs : Logarithms curve A}
    (factor : Nat → ZMod CURVE_ORDER) (value level : Nat) {steps : List (Step Point)} {stops : List (Station Point)}
    (records : List.Forall₂ Records steps stops)
    (committed : ∀ station ∈ stops, ∀ p, station.point = some p →
      logs.log (curve.lift p) = aeval s (interp w n (residues station.values))) :
    total w n s (claimedFrom logs factor level (steps.map (Step.claim value))) =
      aeval s (total w n X (openingsFrom w n factor level stops)) +
        strayed w n s factor value level stops := by
  induction records generalizing level with
  | nil => simp [claimedFrom, openingsFrom, strayed]
  | @cons step station steps stops here _ ih =>
    have log := committed station List.mem_cons_self step.commitment here.point
    rw [List.map_cons, claimedFrom, total_cons, ih (level + 1) fun other member =>
      committed other (List.mem_cons_of_mem _ member), openingsFrom, total_cons, map_add, strayed]
    have first : ((Step.claim value step).opening logs (factor level)).term w n s =
        aeval s ((station.opening w n (factor level)).term w n X) +
          (if station.type = .suffix then algebraMap (ZMod CURVE_ORDER) A
            (factor level * ((station.leaf : ZMod CURVE_ORDER) - value)) *
              aeval s (cofactor w n station.index) else 0) := by
      have leaf : residues station.values station.index = (station.leaf : ZMod CURVE_ORDER) := rfl
      simp only [Opening.term, Claim.opening, Step.claim, Station.opening, trueOpening, log, leaf,
        here.idx, Int.toNat_natCast, Step.leaf, here.nodeType, here.childVal]
      by_cases suffix : station.type = .suffix
      · rw [if_pos suffix, if_pos suffix]
        simp only [Int.cast_natCast, map_natCast, map_mul, map_sub, aeval_X_left_apply, algebraMap_eq,
          aeval_C]
        ring
      · simp [suffix]
    rw [first]
    ring

variable {scheme : Scheme Point}

theorem strayed_missed {t : Trie scheme.width} {digits : List (Fin scheme.width)}
    (missed : landing t digits = none) (x : Fin scheme.width) (value level : Nat) :
    strayed w n s factor value level (stations scheme t digits x) = 0 := by
  induction t generalizing digits level with
  | empty => rfl
  | group stem slots => cases missed
  | inner kids ih =>
    cases digits with
    | nil => rfl
    | cons i digits =>
      rw [stations, strayed, ih i missed (level + 1), if_neg (by simp [arrayStation]), add_zero]

variable (w n s factor) in
/-- A walk that meets a group claims the value at the slot of the key. -/
theorem strayed_met {t : Trie scheme.width} {digits rest stem : List (Fin scheme.width)}
    {slots : Fin scheme.width → Option Word} (met : landing t digits = some (rest, stem, slots))
    (x : Fin scheme.width) (value level : Nat) :
    ∃ last, last < level + digits.length + 2 ∧
      strayed w n s factor value level (stations scheme t digits x) =
        algebraMap (ZMod CURVE_ORDER) A (factor last *
          ((childValue ((slots x).map Word.bytes) : ZMod CURVE_ORDER) - value)) *
            aeval s (cofactor w n x.val) := by
  induction t generalizing digits level with
  | empty => cases met
  | group stem slots =>
    cases met
    refine ⟨level + 1, by omega, ?_⟩
    rw [stations, strayed, strayed, strayed, if_neg (by simp [extensionStation]), leaf_array,
      Int.cast_natCast]
    simp [arrayStation]
  | inner kids ih =>
    cases digits with
    | nil => cases met
    | cons i digits =>
      obtain ⟨last, deep, off⟩ := ih i met (level + 1)
      refine ⟨last, by rw [List.length_cons]; omega, ?_⟩
      rw [stations, strayed, off, if_neg (by simp [arrayStation]), zero_add]

end Verdict

/- The multiproof of one key. -/
section Proof
variable {backend : Backend Point G1 G2 FQ12} {setup : SetupObject G1 G2} {k bits : Nat}
  {w : ZMod CURVE_ORDER} {logs : Logarithms backend.curve A} {s : A} {tree : VerkleTree Point}
  {kids : Fin (kzgScheme backend setup).width → Trie (kzgScheme backend setup).width}
  [NeZero (kzgScheme backend setup).width]
  (ideal : SetupLogs logs setup k w s) (exact : logs.Lossless)
  (grown : Grown backend setup k w bits tree kids)
include grown

theorem records_checkable {key : Word} {steps : List (Step Point)}
    (records : List.Forall₂ Records steps (keyStations backend setup kids key)) :
    Checkable (2 ^ k) steps := by
  have few := keyStations_length grown key
  have size := records.length_eq
  constructor
  · intro step member
    obtain ⟨i, inside, rfl⟩ := List.getElem_of_mem member
    have inside' : i < (keyStations backend setup kids key).length := size ▸ inside
    have here := (List.forall₂_iff_get.mp records).2 i inside inside'
    exact ⟨_, here.idx, (stations_fit backend grown.ready _ _ _ _ (List.getElem_mem inside')).2⟩
  · omega

include ideal exact

/-- Whatever the key and the value are, there is a proof; it is accepted if the
    value is what the walk ends with. -/
theorem key_verdict [DecidableEq FQ12] [DecidableEq Point] (key : Word) :
    ∃ root rootBytes proof, nodePoint (kzgScheme backend setup) (.inner kids) = some root ∧
      VerkleMultiproof.generateProof backend setup tree [key.bytes] = .ok proof ∧
      ∀ v : Word, VerkleMultiproof.verifyProof backend setup [v.bytes] [key.bytes] root proof =
        .ok true ↔ strayed w (2 ^ k) s
          (factorAt backend.sha256 rootBytes (pathOf setup.width key.bytes)) (ofBytes v.bytes) 0
          (keyStations backend setup kids key) = 0 := by
  obtain ⟨root, rootBytes, commitments, total, point, bytes, gathered, totals, poly, _⟩ :=
    multiproof_aggregate grown [key]
  obtain ⟨witness, made, log⟩ := generateWitness_log ideal exact totals
  obtain ⟨traversals, generated, each⟩ := multiproof_generated grown [key] gathered made
  obtain ⟨steps, rest, records, none, rfl⟩ := List.forall₂_cons_left_iff.mp each
  have alone : rest = [] := List.forall₂_nil_left_iff.mp none
  subst alone
  refine ⟨root, rootBytes, _, point, generated, fun v => ?_⟩
  have given : ∀ keyIdx < ([v.bytes].zip [key]).length, ∃ traversal,
      [steps][keyIdx]? = some traversal ∧ Checkable (2 ^ k) traversal := by
    intro keyIdx inside
    have first : keyIdx = 0 := by simpa using inside
    subst first
    exact ⟨steps, rfl, records_checkable grown records⟩
  have verdict := verifyProof_iff ideal bytes grown.ready [v.bytes] [key] commitments given witness
  have off := claims_strayed (factorAt backend.sha256 rootBytes (pathOf setup.width key.bytes))
    (ofBytes v.bytes) 0 records
    fun station member p known =>
      station_log (lossless_commits ideal exact) grown.ready member known
  refine verdict.trans ?_
  rw [log, poly]
  simp only [List.zip_cons_cons, List.zip_nil_right, List.zipIdx_cons, List.zipIdx_nil, List.map_cons,
    List.map_nil, List.sum_cons, List.sum_nil, add_zero, pairOpenings, claimedOpenings,
    List.getElem?_cons_zero, Option.getD_some, keyOpenings]
  rw [off, add_eq_left]

end Proof

section Field
variable {backend : Backend Point G1 G2 FQ12} {setup : SetupObject G1 G2} {k bits : Nat}
  {w s : ZMod CURVE_ORDER} {logs : Logarithms backend.curve (ZMod CURVE_ORDER)}
  {tree : VerkleTree Point}
  {kids : Fin (kzgScheme backend setup).width → Trie (kzgScheme backend setup).width}
  [NeZero (kzgScheme backend setup).width]

theorem word_unique {u v : Word} (same : ofBytes u.bytes = ofBytes v.bytes) : u = v := by
  exact (Word.mk.injEq ..).mpr (ofBytes_injective (u.size.trans v.size.symm) same)

theorem slot_residue {slot : Option Word} (small : ∀ u, slot = some u → ofBytes u.bytes < CURVE_ORDER)
    {v : Word} (positive : 0 < ofBytes v.bytes) (bounded : ofBytes v.bytes < CURVE_ORDER) :
    (childValue (slot.map Word.bytes) : ZMod CURVE_ORDER) - (ofBytes v.bytes : Nat) = 0 ↔
      slot = some v := by
  rw [sub_eq_zero]
  cases slot with
  | none =>
    refine ⟨fun same => ?_, fun impossible => by cases impossible⟩
    have none := residues_equal (by decide) bounded same
    rw [← none] at positive
    exact absurd positive (Nat.lt_irrefl _)
  | some u =>
    refine ⟨fun same => ?_, fun same => by cases same; rfl⟩
    rw [word_unique (residues_equal (small u rfl) bounded same)]

/-- What the walk of a key ends with that compares no stems: nothing, or the
    value at the last chunk of the key in the group it meets. -/
def Passes (t : Trie width) (digits : List (Fin width)) (x : Fin width) (v : Word) : Prop :=
  match landing t digits with
  | none => True
  | some (_, _, slots) => slots x = some v

theorem strayed_iff (grown : Grown backend setup k w bits tree kids) (apart : s ^ 2 ^ k ≠ 1)
    (sha_nonzero : ∀ rootBytes path level,
      deriveRFactorHash backend.sha256 rootBytes path level CURVE_ORDER ≠ .ok 0) (rootBytes : Bytes)
    (small : ∀ path x u, StemTree.lookup (.inner kids) path x = some u →
      ofBytes u.bytes < CURVE_ORDER) (key : Word) {v : Word}
    (positive : 0 < ofBytes v.bytes) (bounded : ofBytes v.bytes < CURVE_ORDER) :
    strayed w (2 ^ k) s (factorAt backend.sha256 rootBytes (pathOf setup.width key.bytes))
        (ofBytes v.bytes) 0 (keyStations backend setup kids key) = 0 ↔
      Passes (.inner kids) (stemOf (kzgScheme backend setup).width key)
        (suffixOf (kzgScheme backend setup).width key) v := by
  have aligned : Aligned (kzgScheme backend setup).width bits := grown.ready.aligned
  rw [Passes, keyStations]
  cases ends : landing (.inner kids) (stemOf (kzgScheme backend setup).width key) with
  | none => exact iff_of_true (strayed_missed ends _ _ 0) trivial
  | some group =>
    obtain ⟨rest, stem, slots⟩ := group
    obtain ⟨last, deep, off⟩ := strayed_met w (2 ^ k) s
      (factorAt backend.sha256 rootBytes (pathOf setup.width key.bytes)) ends
      (suffixOf (kzgScheme backend setup).width key) (ofBytes v.bytes) 0
    obtain ⟨path, found⟩ := landing_slots ends
    have size := stemOf_length aligned.toCuts key
    have few := Nat.div_le_self 256 (kzgScheme backend setup).width.log2
    rw [depth] at size
    have unit := factor_unit backend.sha256 rootBytes (pathOf_ok grown.ready key.bytes).2
      (show last < 256 ^ 2 by omega) (sha_nonzero _ _ _)
    have width : (kzgScheme backend setup).width = 2 ^ k := grown.ready.lays.size
    have inside : (suffixOf (kzgScheme backend setup).width key).val < 2 ^ k :=
      width ▸ (suffixOf (kzgScheme backend setup).width key).isLt
    have outside := cofactor_unit grown.ready.lays.primitive apart inside
    rw [off, mul_eq_zero_iff_right outside, Algebra.algebraMap_self, RingHom.id_apply,
      mul_eq_zero_iff_left unit]
    exact slot_residue (fun u held => small path _ u ((found _).trans held)) positive bounded

theorem treeOf_value {width bits : Nat} [NeZero width] (aligned : Aligned width bits)
    {run : List (Word × Word)} {path : List (Fin width)} {x : Fin width} {u : Word}
    (found : StemTree.lookup (treeOf width run) path x = some u) : ∃ key, (key, u) ∈ run := by
  by_cases odd : ∀ key, stemOf width key = path → suffixOf width key ≠ x
  · rw [treeOf_absent aligned.toCuts run odd] at found
    cases found
  · simp only [not_forall, not_not] at odd
    obtain ⟨key, rfl, rfl⟩ := odd
    rw [treeOf_lookup aligned] at found
    exact ⟨key, lastInserted_member found⟩

end Field

/-- The multiproof of a key is accepted with a value if and only if `get` gives
    the value for the key. -/
def Truthful [DecidableEq FQ12] [DecidableEq Point] (backend : Backend Point G1 G2 FQ12)
    (setup : SetupObject G1 G2) (tree : VerkleTree Point) (key v : Word) : Prop :=
  (∃ root proof, rootCommitment tree = some root ∧
    VerkleMultiproof.generateProof backend setup tree [key.bytes] = .ok proof ∧
    VerkleMultiproof.verifyProof backend setup [v.bytes] [key.bytes] root proof = .ok true) ↔
  VerkleTrees.get (kzgScheme backend setup) tree key.bytes = .ok (some (ofBytes v.bytes))

/-- Nothing is inserted, or the walk of the key meets a group: its own, or one
    that does not have the value at the last chunk of the key. -/
def Reliable (width : Nat) [NeZero width] (run : List (Word × Word)) (key v : Word) : Prop :=
  run = [] ∨ ∃ rest stem slots,
    landing (treeOf width run) (stemOf width key) = some (rest, stem, slots) ∧
      (rest = stem ∨ slots (suffixOf width key) ≠ some v)

theorem passes_reliable {width : Nat} [NeZero width] {run : List (Word × Word)} (some_run : run ≠ [])
    (key v : Word) :
    (Passes (treeOf width run) (stemOf width key) (suffixOf width key) v ↔
      StemTree.lookup (treeOf width run) (stemOf width key) (suffixOf width key) = some v) ↔
      Reliable width run key v := by
  rw [Passes, landing_lookup, Reliable, or_iff_right some_run]
  cases ends : landing (treeOf width run) (stemOf width key) with
  | none => simp
  | some group =>
    obtain ⟨rest, stem, slots⟩ := group
    by_cases own : rest = stem
    · simp [own]
    · simp [own]

theorem empty_truthful [DecidableEq FQ12] [DecidableEq Point] {backend : Backend Point G1 G2 FQ12}
    {setup : SetupObject G1 G2} {k bits : Nat} {w : ZMod CURVE_ORDER}
    [NeZero (kzgScheme backend setup).width] (faithful : Faithful backend.format)
    (ready : Ready setup k w bits) (key v : Word) : Truthful backend setup emptyTree key v := by
  have cuts : Cuts (kzgScheme backend setup).width bits := ready.aligned.toCuts
  have absent := get_lookup (V := Word) (ready_lawful faithful ready) cuts
    (Or.inl ⟨idle_empty _, rfl⟩) (rooted_bare _) (fun _ _ _ first => absurd first List.not_mem_nil) key
  obtain ⟨i, rest, stem, _⟩ := stemOf_cons cuts key
  constructor
  · rintro ⟨root, proof, none, _⟩
    cases none
  · intro found
    rw [absent, stem] at found
    cases found

theorem grown_truthful [DecidableEq FQ12] [DecidableEq Point] {backend : Backend Point G1 G2 FQ12}
    {setup : SetupObject G1 G2} {k bits : Nat} {w s : ZMod CURVE_ORDER}
    {logs : Logarithms backend.curve (ZMod CURVE_ORDER)} {tree : VerkleTree Point}
    {kids : Fin (kzgScheme backend setup).width → Trie (kzgScheme backend setup).width}
    [NeZero (kzgScheme backend setup).width] (ideal : SetupLogs logs setup k w s)
    (exact : logs.Lossless) (grown : Grown backend setup k w bits tree kids) (apart : s ^ 2 ^ k ≠ 1)
    (sha_nonzero : ∀ rootBytes path level,
      deriveRFactorHash backend.sha256 rootBytes path level CURVE_ORDER ≠ .ok 0)
    (small : ∀ path x u, StemTree.lookup (.inner kids) path x = some u →
      ofBytes u.bytes < CURVE_ORDER) (key : Word) {v : Word}
    (positive : 0 < ofBytes v.bytes) (bounded : ofBytes v.bytes < CURVE_ORDER) :
    Truthful backend setup tree key v ↔
      (Passes (.inner kids) (stemOf (kzgScheme backend setup).width key)
        (suffixOf (kzgScheme backend setup).width key) v ↔ stored backend setup kids key = some v) := by
  obtain ⟨root, rootBytes, proof, point, generated, verdict⟩ := key_verdict ideal exact grown key
  have accepted : (∃ root proof, rootCommitment tree = some root ∧
      VerkleMultiproof.generateProof backend setup tree [key.bytes] = .ok proof ∧
      VerkleMultiproof.verifyProof backend setup [v.bytes] [key.bytes] root proof = .ok true) ↔
      Passes (.inner kids) (stemOf (kzgScheme backend setup).width key)
        (suffixOf (kzgScheme backend setup).width key) v := by
    rw [← strayed_iff grown apart sha_nonzero rootBytes small key positive bounded, ← verdict v]
    constructor
    · rintro ⟨root', proof', known, generated', verified⟩
      rw [(grown_rootCommitment grown).trans point] at known
      rw [generated] at generated'
      cases known
      cases generated'
      exact verified
    · exact fun verified => ⟨root, proof, (grown_rootCommitment grown).trans point, generated, verified⟩
  have answer : VerkleTrees.get (kzgScheme backend setup) tree key.bytes =
      .ok (some (ofBytes v.bytes)) ↔ stored backend setup kids key = some v := by
    rw [grown_get grown, Except.ok.injEq, Option.map_eq_some_iff]
    constructor
    · rintro ⟨u, held, same⟩
      rw [held, word_unique same]
    · exact fun held => ⟨v, held, rfl⟩
  rw [Truthful, accepted, answer]

theorem run_truthful {width : Nat} (supported : width = 16 ∨ width = 256) [NeZero width]
    [DecidableEq FQ12] {curve : Curve Point2D G1 G2 FQ12}
    (logs : Logarithms curve (ZMod CURVE_ORDER)) (exact : logs.Lossless) (logFloor : Nat → Nat)
    (sha256 : Bytes → Bytes) {zlib : Zlib} (lossless : zlib.Lossless) {secret : Nat}
    {setup : SetupObject G1 G2} (made : verkleKzgSetup curve secret width = .ok setup)
    (apart : ∀ i < setup.width,
      (secret : ZMod CURVE_ORDER) ≠ (setup.rootOfUnity : ZMod CURVE_ORDER) ^ i)
    (sha_nonzero : ∀ rootBytes path level,
      deriveRFactorHash sha256 rootBytes path level CURVE_ORDER ≠ .ok 0)
    {run : List (Word × Word)} (some_run : run ≠ [])
    (values : ∀ e ∈ run, 0 < ofBytes e.2.bytes ∧ ofBytes e.2.bytes < CURVE_ORDER)
    (valid : (insertRun (plainScheme curve logFloor sha256 zlib setup) run).2.disk.db.Consistent)
    (key v : Word) (positive : 0 < ofBytes v.bytes) (bounded : ofBytes v.bytes < CURVE_ORDER) :
    Truthful (plainBackend curve logFloor sha256 zlib) setup
        (insertRun (plainScheme curve logFloor sha256 zlib setup) run).2 key v ↔
      (Passes (treeOf width run) (stemOf width key) (suffixOf width key) v ↔
        StemTree.lookup (treeOf width run) (stemOf width key) (suffixOf width key) = some v) := by
  obtain ⟨k, w, bits, standard, ready⟩ := setup_ready supported made
  have size := made_width made
  subst size
  have nonempty := width_neZero (plainBackend curve logFloor sha256 zlib) ready
  obtain ⟨kids, grown, tree, _, _⟩ := run_grown (plainBackend curve logFloor sha256 zlib)
    (plainFormat_faithful sha256 lossless) ready some_run valid
  have tree' : treeOf setup.width run = .inner kids := tree
  rw [tree']
  refine grown_truthful (standard_logs logs standard) exact grown
    (outside_domain standard.tables apart) sha_nonzero ?_ key positive bounded
  intro path x u found
  rw [← tree] at found
  obtain ⟨other, member⟩ := treeOf_value ready.aligned found
  exact (values _ member).2

/-- The multiproof of a key tells the truth about it if and only if the walk of
    the key, which compares no stems, does not end where the prover is misled. -/
theorem multiproof_truthful_iff {width : Nat} (supported : width = 16 ∨ width = 256) [NeZero width]
    [DecidableEq FQ12] {curve : Curve Point2D G1 G2 FQ12}
    (logs : Logarithms curve (ZMod CURVE_ORDER)) (exact : logs.Lossless) (logFloor : Nat → Nat)
    (sha256 : Bytes → Bytes) {zlib : Zlib} (lossless : zlib.Lossless) {secret : Nat}
    {setup : SetupObject G1 G2} (made : verkleKzgSetup curve secret width = .ok setup)
    (apart : ∀ i < setup.width,
      (secret : ZMod CURVE_ORDER) ≠ (setup.rootOfUnity : ZMod CURVE_ORDER) ^ i)
    (sha_nonzero : ∀ rootBytes path level,
      deriveRFactorHash sha256 rootBytes path level CURVE_ORDER ≠ .ok 0)
    (run : List (Word × Word))
    (values : ∀ e ∈ run, 0 < ofBytes e.2.bytes ∧ ofBytes e.2.bytes < CURVE_ORDER)
    (valid : (insertRun (plainScheme curve logFloor sha256 zlib setup) run).2.disk.db.Consistent)
    (key v : Word) (positive : 0 < ofBytes v.bytes) (bounded : ofBytes v.bytes < CURVE_ORDER) :
    Truthful (plainBackend curve logFloor sha256 zlib) setup
        (insertRun (plainScheme curve logFloor sha256 zlib setup) run).2 key v ↔
      Reliable width run key v := by
  by_cases some_run : run = []
  · subst some_run
    obtain ⟨k, w, bits, standard, ready⟩ := setup_ready supported made
    have nonempty := width_neZero (plainBackend curve logFloor sha256 zlib) ready
    exact iff_of_true (empty_truthful (plainFormat_faithful sha256 lossless) ready key v) (Or.inl rfl)
  · exact (run_truthful supported logs exact logFloor sha256 lossless made apart sha_nonzero some_run
      values valid key v positive bounded).trans (passes_reliable some_run key v)

theorem multiproof_truthful_sample :
    Truthful (plainBackend forkCurve sampleLogFloor forkSha256 forkZlib) forkSetup
        (insertRun (plainScheme forkCurve sampleLogFloor forkSha256 forkZlib forkSetup)
          forkRun).2 forkKey sampleValue ↔
      Reliable 16 forkRun forkKey sampleValue := by
  have bounds : ∀ e ∈ forkRun, 0 < ofBytes e.2.bytes ∧ ofBytes e.2.bytes < CURVE_ORDER := by decide
  exact multiproof_truthful_iff (Or.inl rfl) forkLogs forkLogs_lossless sampleLogFloor forkSha256
    forkZlib_lossless forkSetup_made forkSetup_apart forkSha256_nonzero forkRun
    bounds forkRun_consistent forkKey sampleValue (by decide) (by decide)

/-- Another key, whose walk ends at an empty slot: its proof is accepted with a
    value, and `get` gives none. -/
theorem multiproof_misled :
    ¬ Truthful (plainBackend forkCurve sampleLogFloor forkSha256 forkZlib) forkSetup
        (insertRun (plainScheme forkCurve sampleLogFloor forkSha256 forkZlib forkSetup)
          [(sampleKey, sampleValue)]).2 forkKey sampleValue := by
  have bounds : ∀ e ∈ [(sampleKey, sampleValue)],
      0 < ofBytes e.2.bytes ∧ ofBytes e.2.bytes < CURVE_ORDER := by decide
  have missed : landing (treeOf 16 [(sampleKey, sampleValue)]) (stemOf 16 forkKey) = none := by rfl
  have absent : StemTree.lookup (treeOf 16 [(sampleKey, sampleValue)]) (stemOf 16 forkKey)
      (suffixOf 16 forkKey) = none := by
    rw [landing_lookup, missed]
  rw [run_truthful (Or.inl rfl) forkLogs forkLogs_lossless sampleLogFloor forkSha256
    forkZlib_lossless forkSetup_made forkSetup_apart forkSha256_nonzero (List.cons_ne_nil _ _) bounds
    forkRun_first forkKey sampleValue (by decide) (by decide), Passes, missed, absent]
  simp

end MultiproofTruth
