import StatelessEthereum.MultiproofOpenings

/- The multiproof of inserted keys adds up the same polynomial as the plain
   proof, however the keys share their nodes. -/
namespace MultiproofSharing
open Polynomial PythonError BigEndian PutLog KzgSetup KzgScheme
open CommitmentScheme VerkleOpenings VerkleChecks VerkleCompleteness VerkleMultiproof MultiproofOpenings
open VerkleProof (arrayValues extensionValues generateWitness)
open VerkleTrees hiding insert get getKeyChunks
open VerkleSerialization
open StemTree hiding insert lookup
open VerkleStorage VerkleKey VerkleRuns VerkleRefinement
variable {Point G1 G2 FQ12 : Type}

/- A reference names one subtree. -/
section Named
variable {scheme : Scheme Point} {db : Store Bytes Bytes}

theorem childList_injective {width : Nat} {f g : Fin width → Option Word}
    (same : childList f = childList g) : f = g := by
  have slots := List.ofFn_injective same
  have words : Function.Injective Word.bytes := by
    rintro ⟨a, _⟩ ⟨b, _⟩ equal
    cases equal
    rfl
  funext i
  exact Option.map_injective words (congrFun slots i)

theorem stemBytes_injective {width : Nat} {stem other : List (Fin width)} (narrow : Narrow stem)
    (narrow' : Narrow other) (same : stemBytes stem = stemBytes other) : stem = other := by
  have values := congrArg (List.map UInt8.toNat) same
  rw [stemBytes_toNat narrow, stemBytes_toNat narrow'] at values
  exact List.map_injective_iff.mpr Fin.val_injective values

theorem holds_unique (valid : db.Consistent) {p q : Point} {content other : AnyNode Point}
    (held : Holds scheme db p content) (held' : Holds scheme db q other)
    (same : pointRef scheme p = pointRef scheme q) : content = other := by
  obtain ⟨encoded, member, loads⟩ := held
  obtain ⟨encoded', member', loads'⟩ := held'
  rw [same] at member
  rw [valid _ _ _ member member', loads'] at loads
  exact (Except.ok.inj loads).symm

def topContent (scheme : Scheme Point) (p : Point) : Trie scheme.width → Option (AnyNode Point)
  | .empty => none
  | .group stem slots => (suffixRef scheme slots).map fun child =>
    .extension p (stemBytes stem) child.bytes
  | .inner kids => some (.array PREFIX_INTERNAL p (childList (refs scheme kids)))

theorem written_top {t : Trie scheme.width} (occupied : t ≠ .empty) (written : Written db t) :
    ∃ p content, nodePoint scheme t = some p ∧ topContent scheme p t = some content ∧
      Holds scheme db p content := by
  cases t with
  | empty => exact absurd rfl occupied
  | group stem slots =>
    obtain ⟨_, _, child, named, p, point, held⟩ := written
    exact ⟨p, _, by rw [nodePoint, named, point], by rw [topContent, named]; rfl, held⟩
  | inner kids =>
    obtain ⟨⟨p, point, held⟩, _⟩ := written
    exact ⟨p, _, point, rfl, held⟩

def contentPoint : AnyNode Point → Point
  | .array _ p _ => p
  | .extension p _ _ => p

theorem topContent_point {p : Point} {t : Trie scheme.width} {content : AnyNode Point}
    (top : topContent scheme p t = some content) : contentPoint content = p := by
  cases t with
  | empty => cases top
  | group stem slots =>
    obtain ⟨child, _, rfl⟩ := Option.map_eq_some_iff.mp top
    rfl
  | inner kids =>
    cases top
    rfl

theorem top_unique (valid : db.Consistent) {t u : Trie scheme.width} (written : Written db t)
    (written' : Written db u) (same : refOf scheme t = refOf scheme u) :
    t = .empty ∧ u = .empty ∨ ∃ p content, topContent scheme p t = some content ∧
      topContent scheme p u = some content := by
  by_cases gone : t = .empty
  · by_cases gone' : u = .empty
    · exact Or.inl ⟨gone, gone'⟩
    · obtain ⟨q, _, point, _⟩ := written_top gone' written'
      simp [gone, refOf, nodePoint, point] at same
  · obtain ⟨p, content, point, top, held⟩ := written_top gone written
    by_cases gone' : u = .empty
    · simp [gone', refOf, nodePoint, point] at same
    · obtain ⟨q, other, point', top', held'⟩ := written_top gone' written'
      rw [refOf, refOf, point, point', Option.map_some, Option.map_some, Option.some.injEq] at same
      have contents := holds_unique valid held held' same
      rw [contents] at top
      have points : p = q := (topContent_point top).symm.trans (topContent_point top')
      exact Or.inr ⟨p, other, top, points ▸ top'⟩

theorem suffix_unique (valid : db.Consistent) {slots other : Fin scheme.width → Option Word}
    (stored : ArrayWritten db PREFIX_SUFFIX slots) (stored' : ArrayWritten db PREFIX_SUFFIX other)
    (same : suffixRef scheme slots = suffixRef scheme other) : slots = other := by
  obtain ⟨p, point, held⟩ := stored
  obtain ⟨q, point', held'⟩ := stored'
  rw [suffixRef, suffixRef, point, point', Option.map_some, Option.map_some, Option.some.injEq] at same
  have contents := holds_unique valid held held' same
  rw [AnyNode.array.injEq] at contents
  exact childList_injective contents.2.2

theorem ref_unique (valid : db.Consistent) {t u : Trie scheme.width} (written : Written db t)
    (written' : Written db u) (same : refOf scheme t = refOf scheme u) : t = u := by
  induction t generalizing u with
  | empty =>
    rcases top_unique valid written written' same with ⟨_, rfl⟩ | ⟨p, content, top, _⟩
    · rfl
    · cases top
  | group stem slots =>
    rcases top_unique valid written written' same with ⟨gone, _⟩ | ⟨p, content, top, top'⟩
    · cases gone
    · obtain ⟨child, named, rfl⟩ := Option.map_eq_some_iff.mp top
      cases u with
      | empty => cases top'
      | inner kids => cases top'
      | group other slots' =>
        obtain ⟨child', named', equal⟩ := Option.map_eq_some_iff.mp top'
        rw [AnyNode.extension.injEq] at equal
        have stems := stemBytes_injective written'.1.narrow written.1.narrow equal.2.1
        have children : child = child' := by
          cases child
          cases child'
          exact (Word.mk.injEq ..).mpr equal.2.2.symm
        rw [stems, suffix_unique valid written.2.1 written'.2.1 (by rw [named, named', children])]
  | inner kids ih =>
    rcases top_unique valid written written' same with ⟨gone, _⟩ | ⟨p, content, top, top'⟩
    · cases gone
    · cases top
      cases u with
      | empty => cases top'
      | group other slots =>
        obtain ⟨_, _, equal⟩ := Option.map_eq_some_iff.mp top'
        cases equal
      | inner kids' =>
        rw [topContent, Option.some.injEq, AnyNode.array.injEq] at top'
        have children := childList_injective top'.2.2
        congr 1
        funext i
        exact ih i (written.2 i) (written'.2 i) (congrFun children i).symm

/-- Where a station of a tree lies: at an inner node of a subtree, or below all
    of them. -/
theorem station_source {t : Trie scheme.width} (written : Written db t)
    (digits : List (Fin scheme.width)) (x : Fin scheme.width) {station : Station Point}
    (member : station ∈ stations scheme t digits x) {p : Point} (point : station.point = some p) :
    (∃ path kids, subtree t path = .inner kids ∧ Written db (.inner kids) ∧
        nodePoint scheme (.inner kids) = some p) ∨
      ∃ content, Holds scheme db p content ∧
        ∀ children, content ≠ .array PREFIX_INTERNAL p children := by
  induction t generalizing digits with
  | empty => simp [stations] at member
  | group stem slots =>
    obtain ⟨_, ⟨q, point', held'⟩, child, named, r, point'', held⟩ := written
    simp only [stations, List.mem_cons, List.not_mem_nil, or_false] at member
    rcases member with rfl | rfl
    · rw [extensionStation, named, point''] at point
      cases point
      exact Or.inr ⟨_, held, by simp⟩
    · rw [arrayStation, point'] at point
      cases point
      exact Or.inr ⟨_, held', by simp [PREFIX_SUFFIX, PREFIX_INTERNAL]⟩
  | inner kids ih =>
    cases digits with
    | nil => simp [stations] at member
    | cons i digits =>
      rw [stations, List.mem_cons] at member
      rcases member with rfl | later
      · exact Or.inl ⟨[], kids, rfl, written, point⟩
      · rcases ih i (written.2 i) digits later with ⟨path, kids', at_path, written', same⟩ | other
        · exact Or.inl ⟨i :: path, kids', at_path, written', same⟩
        · exact Or.inr other

theorem root_apart (valid : db.Consistent) {kids : Fin scheme.width → Trie scheme.width}
    (written : Written db (.inner kids)) (i : Fin scheme.width) (digits : List (Fin scheme.width))
    (x : Fin scheme.width) {p : Point} (root : nodePoint scheme (.inner kids) = some p) :
    some p ∉ (stations scheme (kids i) digits x).map Station.point := by
  intro listed
  obtain ⟨station, member, point⟩ := List.mem_map.mp listed
  rcases station_source (written.2 i) digits x member point with
    ⟨path, kids', at_path, written', same⟩ | ⟨content, held, other⟩
  · have equal := ref_unique valid written written' (by rw [refOf, refOf, root, same])
    refine subtree_other (t := .inner kids) (by simp) i path ?_
    rw [subtree, at_path, equal]
  · obtain ⟨⟨q, point', held'⟩, _⟩ := written
    rw [nodePoint_inner, point'] at root
    cases root
    exact other _ (holds_unique valid held held' rfl)

end Named

/- Both provers. -/

theorem records_points {steps : List (Step Point)} {stops : List (Station Point)}
    (records : List.Forall₂ Records steps stops) :
    stops.map Station.point = (steps.map Step.commitment).map some := by
  induction records with
  | nil => rfl
  | cons here _ ih => rw [List.map_cons, List.map_cons, List.map_cons, here.point, ih]

section Provers
variable {backend : Backend Point G1 G2 FQ12} {setup : SetupObject G1 G2}
  {k bits : Nat} {w : ZMod CURVE_ORDER} {tree : VerkleTree Point}
  {kids : Fin (kzgScheme backend setup).width → Trie (kzgScheme backend setup).width}
  [NeZero (kzgScheme backend setup).width] (grown : Grown backend setup k w bits tree kids)
include grown

/-- A traversal of an inserted key lists the root and the commitments of
    `get_proof_tree`, none of which is that of the root. -/
theorem traversal_proof {key : Word} (found : stored backend setup kids key ≠ none)
    {steps : List (Step Point)}
    (records : List.Forall₂ Records steps (keyStations backend setup kids key)) :
    (steps.map Step.commitment).head? = nodePoint (kzgScheme backend setup) (.inner kids) ∧
      getProofTree (kzgScheme backend setup) tree key.bytes =
        .ok (steps.map Step.commitment).tail ∧
      ∀ q ∈ (steps.map Step.commitment).tail,
        some q ∈ (keyStations backend setup kids key).map Station.point ∧
          nodePoint (kzgScheme backend setup) (.inner kids) ≠ some q := by
  have points := records_points records
  have aligned : Aligned (kzgScheme backend setup).width bits := grown.ready.aligned
  obtain ⟨i, digits, stem, _⟩ := stemOf_cons aligned.toCuts key
  have proof : proofOf (kzgScheme backend setup) (.inner kids)
      (stemOf (kzgScheme backend setup).width key) = (steps.map Step.commitment).tail := by
    have walk := points
    rw [keyStations] at walk
    rw [proofOf, proofPoints_stations found, walk, ← List.map_drop, List.filterMap_map, List.drop_one]
    exact List.filterMap_some
  obtain ⟨id, p, standing, _, _⟩ := grown.held
  have top : (steps.map Step.commitment).head? = nodePoint (kzgScheme backend setup) (.inner kids) := by
    have first := congrArg List.head? points
    rw [keyStations, stem, stations, List.map_cons, List.head?_cons, List.head?_map] at first
    cases shape : (steps.map Step.commitment).head? with
    | none =>
      rw [shape] at first
      cases first
    | some q =>
      rw [shape, Option.map_some, Option.some.injEq] at first
      exact first.symm
  refine ⟨top, by rw [getProofTree_ok grown, proof], fun q member => ?_⟩
  constructor
  · rw [points]
    exact List.mem_map_of_mem (List.mem_of_mem_tail member)
  · intro root
    have deeper : some q ∈ ((steps.map Step.commitment).map some).tail := by
      rw [← List.map_tail]
      exact List.mem_map_of_mem member
    rw [← points, keyStations, stem, stations, List.map_cons, List.tail_cons] at deeper
    exact root_apart grown.valid ⟨standing.stored, standing.shows.written⟩ i digits
      (suffixOf (kzgScheme backend setup).width key) root deeper

variable [DecidableEq Point]

theorem totals_agree (keys : List Word) (found : ∀ key ∈ keys, stored backend setup kids key ≠ none) :
    ∃ p commitments proofs total, nodePoint (kzgScheme backend setup) (.inner kids) = some p ∧
      Totals (2 ^ k) total ∧
      VerkleMultiproof.aggregate backend setup tree (keys.map Word.bytes) = .ok (commitments, total) ∧
      VerkleProof.aggregate backend setup tree (keys.map Word.bytes) = .ok (proofs, total) ∧
      commitments.Nodup ∧ ∀ q, q ∈ commitments ↔ q ≠ p ∧
        ∃ key ∈ keys, some q ∈ (keyStations backend setup kids key).map Station.point := by
  obtain ⟨p, rootBytes, commitments, total, point, bytes, gathered, totals, poly, distinct, known⟩ :=
    multiproof_aggregate grown keys
  obtain ⟨p', rootBytes', total', point', bytes', plain, totals', poly'⟩ := aggregate_ok grown keys found
  rw [point] at point'
  cases point'
  rw [bytes] at bytes'
  cases bytes'
  have same : total = total' := totals_unique grown.ready.lays.primitive (Nat.two_pow_pos k) totals
    totals' (poly.trans poly'.symm)
  exact ⟨p, commitments, _, total, point, totals, gathered, same ▸ plain, distinct, known⟩

end Provers

/-- A total of the domain has a witness, over any groups. -/
theorem generateWitness_ok {backend : Backend Point G1 G2 FQ12} {secret : Nat}
    {setup : SetupObject G1 G2} {k : Nat} {w : ZMod CURVE_ORDER}
    (standard : Standard backend.curve secret setup k w) {total : List Int}
    (totals : Totals (2 ^ k) total) : ∃ witness, generateWitness backend setup total = .ok witness := by
  have count : setup.setup2.length = (total.map Int.toNat).length := by
    rw [standard.setup2, List.length_map, List.length_map, totals.size, standard.tables.lagranges.1]
  obtain ⟨o, sums⟩ := lincomb_ok backend.curve.add backend.curve.Z1 backend.logFloor
    (IdealCurve.factors_some totals.size) count
  exact ⟨_, by simp only [generateWitness, sums, bind, Except.bind]; rfl⟩

/-- The multiproof of inserted keys and their plain proof have one total and one
    witness. Every traversal lists the commitments of `get_proof_tree`, which
    the multiproof sends once each. -/
theorem multiproof_refines_plain {width : Nat} (supported : width = 16 ∨ width = 256)
    (curve : Curve Point2D G1 G2 FQ12) (logFloor : Nat → Nat) (sha256 : Bytes → Bytes) {zlib : Zlib}
    (lossless : zlib.Lossless) {secret : Nat} {setup : SetupObject G1 G2}
    (made : verkleKzgSetup curve secret width = .ok setup) (run : List (Word × Word))
    (valid : (insertRun (plainScheme curve logFloor sha256 zlib setup) run).2.disk.db.Consistent)
    (keys : List Word) (occupied : keys ≠ [])
    (inserted : ∀ key ∈ keys, lastInserted run key ≠ none) :
    let backend := plainBackend curve logFloor sha256 zlib
    let tree := (insertRun (plainScheme curve logFloor sha256 zlib setup) run).2
    ∃ commitments proofs total proofDict witness,
      VerkleMultiproof.aggregate backend setup tree (keys.map Word.bytes) = .ok (commitments, total) ∧
      VerkleProof.aggregate backend setup tree (keys.map Word.bytes) = .ok (proofs, total) ∧
      VerkleMultiproof.generateProof backend setup tree (keys.map Word.bytes) =
        .ok (proofDict, witness) ∧
      VerkleProof.generateProof backend setup tree (keys.map Word.bytes) = .ok (proofs, witness) ∧
      proofDict.commitments.Nodup ∧
      ∀ keyIdx key, keys[keyIdx]? = some key → ∃ traversal,
        proofDict.keyTraversals keyIdx = some traversal ∧
        (traversal.map Step.commitment).head? = rootCommitment tree ∧
        getProofTree (plainScheme curve logFloor sha256 zlib setup) tree key.bytes =
          .ok (traversal.map Step.commitment).tail ∧
        ∀ p ∈ (traversal.map Step.commitment).tail, p ∈ proofDict.commitments := by
  intro backend tree
  obtain ⟨k, w, bits, standard, ready⟩ := setup_ready supported made
  have positive := width_neZero backend ready
  obtain ⟨kids, grown, _, answers, _⟩ := run_grown backend (plainFormat_faithful sha256 lossless) ready
    (inserted_run occupied inserted) valid
  have found : ∀ key ∈ keys, stored backend setup kids key ≠ none := fun key member => by
    rw [answers]
    exact inserted key member
  obtain ⟨p, commitments, proofs, total, point, totals, gathered, plain, distinct, known⟩ :=
    totals_agree grown keys found
  obtain ⟨witness, made'⟩ := @generateWitness_ok _ _ _ _ backend _ _ _ _ standard _ totals
  obtain ⟨traversals, generated, each⟩ := multiproof_generated grown keys gathered made'
  have whole : VerkleProof.generateProof backend setup (insertRun (kzgScheme backend setup) run).2
      (keys.map Word.bytes) = .ok (proofs, witness) := by
    simp only [VerkleProof.generateProof, plain, made', bind, Except.bind]
  refine ⟨commitments, proofs, total, _, witness, gathered, plain, generated, whole, distinct, ?_⟩
  · intro keyIdx key here
    obtain ⟨traversal, at_place, records⟩ := each_at each here
    have member := List.mem_of_getElem? here
    obtain ⟨top, proof, passed⟩ := traversal_proof grown (found key member) records
    refine ⟨traversal, at_place, top.trans (grown_rootCommitment grown).symm, proof,
      fun q inside => ?_⟩
    · obtain ⟨station, other⟩ := passed q inside
      exact (known q).mpr ⟨fun same => other (same ▸ point), key, member, station⟩

/-- Two keys that share all nodes below the root, and one of them twice. -/
theorem multiproof_refines_plain_sample :
    let backend := plainBackend forkCurve sampleLogFloor forkSha256 forkZlib
    let tree := (insertRun (plainScheme forkCurve sampleLogFloor forkSha256 forkZlib forkSetup)
      ([(sampleKey, sampleValue)] ++ [(forkKey, sampleValue)])).2
    ∃ commitments proofs total proofDict witness,
      VerkleMultiproof.aggregate backend forkSetup tree
        [sampleKey.bytes, forkKey.bytes, sampleKey.bytes] = .ok (commitments, total) ∧
      VerkleProof.aggregate backend forkSetup tree
        [sampleKey.bytes, forkKey.bytes, sampleKey.bytes] = .ok (proofs, total) ∧
      VerkleMultiproof.generateProof backend forkSetup tree
        [sampleKey.bytes, forkKey.bytes, sampleKey.bytes] = .ok (proofDict, witness) ∧
      VerkleProof.generateProof backend forkSetup tree
        [sampleKey.bytes, forkKey.bytes, sampleKey.bytes] = .ok (proofs, witness) ∧
      proofDict.commitments.Nodup := by
  have present : ∀ key ∈ [sampleKey, forkKey, sampleKey],
      lastInserted ([(sampleKey, sampleValue)] ++ [(forkKey, sampleValue)]) key ≠ none := by decide
  obtain ⟨commitments, proofs, total, proofDict, witness, gathered, plain, generated, whole, distinct,
    _⟩ := multiproof_refines_plain (Or.inl rfl) forkCurve sampleLogFloor forkSha256 forkZlib_lossless
      forkSetup_made ([(sampleKey, sampleValue)] ++ [(forkKey, sampleValue)]) forkRun_facts.1
      [sampleKey, forkKey, sampleKey] (List.cons_ne_nil _ _) present
  exact ⟨commitments, proofs, total, proofDict, witness, gathered, plain, generated, whole, distinct⟩

end MultiproofSharing
