import StatelessEthereum.VerkleChecks

/- The plain Verkle proof of inserted keys is accepted. -/
namespace VerkleCompleteness
open Polynomial PythonError BigEndian PutLog EvaluationDomain Fft PolyUtils KzgSetup KzgScheme
open CommitmentScheme HashScheme IdealCurve Openings VerkleProof VerkleOpenings VerkleChecks
open VerkleTrees hiding insert get getKeyChunks
open VerkleSerialization
open StemTree hiding insert lookup
open VerkleStorage VerkleKey VerkleRuns
variable {Point G1 G2 FQ12 A : Type} [CommRing A] [Algebra (ZMod CURVE_ORDER) A]

structure Tells (claim : Claim Point) (station : Station Point) : Prop where
  point : station.point = some claim.point
  index : claim.index = station.index
  leaf : claim.leaf = station.leaf

section Claims
variable {scheme : Scheme Point} (lawful : Lawful scheme)
include lawful

omit lawful in
theorem leaf_array (type : NodeType) (f : Fin scheme.width → Option Word) (i : Fin scheme.width) :
    (arrayStation scheme type f i).leaf = childValue ((f i).map Word.bytes) := by
  simp [arrayStation, Station.leaf, arrayValues, childValues, childList, List.getD_eq_getElem?_getD]

theorem leaf_reference {type : NodeType} {f : Fin scheme.width → Option Word} {i : Fin scheme.width}
    {p : Point} (ref : f i = some (pointRef scheme p)) :
    (arrayStation scheme type f i).leaf = scheme.hashPointToField p := by
  rw [leaf_array, ref, Option.map_some, childValue, Option.elim_some, pointRef,
    ofBytes_toBytes_of_lt (lawful.hash_small p)]

theorem leaf_extension (stem : List (Fin scheme.width)) (p : Point) :
    (extensionStation scheme stem (some (pointRef scheme p))).leaf = scheme.hashPointToField p := by
  have value : (extensionStation scheme stem (some (pointRef scheme p))).leaf =
      (childValue (some (pointRef scheme p).bytes) : Int) := rfl
  rw [value, childValue, Option.elim_some, pointRef, ofBytes_toBytes_of_lt (lawful.hash_small p)]

theorem honest_claims (narrow : scheme.width ≤ 256) {t : Trie scheme.width}
    {digits : List (Fin scheme.width)} {x : Fin scheme.width} {value : Word} (found : StemTree.lookup t digits x = some value)
    {stem : List Nat} {level : Nat} (here : stem.drop level = digits.map Fin.val) :
    ∃ p rest claims, nodePoint scheme t = some p ∧
      proofPoints scheme t digits = (p :: rest).map some ∧
      levelClaims scheme.hashPointToField stem x.val (ofBytes value.bytes) level p rest =
        some claims ∧ List.Forall₂ Tells claims (stations scheme t digits x) := by
  induction t generalizing digits level with
  | empty => simp [StemTree.lookup] at found
  | group own slots =>
    rw [StemTree.lookup] at found
    split at found
    · rename_i same
      obtain ⟨q, point, _⟩ := commit_childList lawful slots
      have ref : suffixRef scheme slots = some (pointRef scheme q) := by rw [suffixRef, point]; rfl
      obtain ⟨p, point', _⟩ := commit_extension lawful (narrow_stem narrow own)
        (suffixRef scheme slots)
      refine ⟨p, [q], _, point', ?_, rfl, ?_⟩
      · simp only [proofPoints, same, ↓reduceIte, nodePoint, point', point, List.map_cons,
          List.map_nil]
      · refine .cons ⟨point', rfl, ?_⟩ (.cons ⟨point, rfl, ?_⟩ .nil)
        · rw [ref]
          exact (leaf_extension lawful own q).symm
        · rw [leaf_array, found]
          rfl
    · simp at found
  | inner kids ih =>
    cases digits with
    | nil => simp [StemTree.lookup] at found
    | cons i digits =>
      have below : stem.drop (level + 1) = digits.map Fin.val := by
        rw [← List.drop_drop, here]
        rfl
      obtain ⟨q, rest, claims, point', points, read, tells⟩ := ih i found below
      obtain ⟨p, point, _⟩ := commit_childList lawful (refs scheme kids)
      have lands := lookup_lands (t := kids i) (k := digits) (x := x) (found ▸ by simp)
      have occupied : rest ≠ [] := by
        intro none
        have two := lands_stations scheme lands x
        have sizes := levelClaims_length read
        rw [none, tells.length_eq] at sizes
        simp only [List.length_nil] at sizes
        omega
      have chunk : stem[level]? = some i.val := by
        rw [← List.head?_drop, here]
        rfl
      refine ⟨p, q :: rest, _, point, by rw [proofPoints, nodePoint_inner, point, points]; rfl,
        by rw [levelClaims, levelIndex, if_neg occupied, chunk, read]; rfl, ?_⟩
      have ref : refs scheme kids i = some (pointRef scheme q) := by rw [refs, refOf, point']; rfl
      exact .cons ⟨point, rfl, (leaf_reference lawful ref).symm⟩ tells

end Claims

section Logs
variable {backend : Backend Point G1 G2 FQ12} {setup : SetupObject G1 G2} {k bits : Nat}
  {w : ZMod CURVE_ORDER} {logs : Logarithms backend.curve A} {s : A}

def Commits (backend : Backend Point G1 G2 FQ12) (logs : Logarithms backend.curve A) (setup : SetupObject G1 G2) (k : Nat)
    (w : ZMod CURVE_ORDER) (s : A) : Prop :=
  ∀ values p, values.length ≤ 2 ^ k →
    commitValues backend.curve backend.logFloor setup values = .ok p →
    logs.log (backend.curve.lift p) = aeval s (interp w (2 ^ k) (residues values))

theorem array_log (commits : Commits backend logs setup k w s) (ready : Ready setup k w bits)
    {f : Fin (kzgScheme backend setup).width → Option Word} {p : Point}
    (point : arrayPoint (kzgScheme backend setup) f = some p) :
    logs.log (backend.curve.lift p) =
      aeval s (interp w (2 ^ k) (residues (arrayValues (childList f)))) := by
  have committed : commit backend.curve backend.logFloor setup
      ((childValues (childList f)).map Int.ofNat) = .ok p := ok_of_toOption point
  have size : ((childValues (childList f)).map Int.ofNat).length = setup.width := by
    rw [childValues, List.length_map, List.length_map, childList_length]
    rfl
  rw [commit, size, Nat.sub_self, List.replicate_zero, List.append_nil] at committed
  exact commits _ p (Nat.le_of_eq ((arrayValues_length f).trans ready.lays.size)) committed

theorem extension_log (commits : Commits backend logs setup k w s)
    (ready : Ready setup k w bits)
    {stem : List (Fin (kzgScheme backend setup).width)} {child : Option Word} {p : Point}
    (point : extensionPoint (kzgScheme backend setup) stem child = some p) :
    logs.log (backend.curve.lift p) = aeval s (interp w (2 ^ k)
      (residues (extensionValues setup.width (stemBytes stem) (child.map Word.bytes)))) := by
  have committed : commitExtension backend.curve backend.logFloor setup (stem.map Fin.val)
      (child.map Word.bytes) = .ok p := ok_of_toOption point
  have few : (kzgScheme backend setup).width ≤ 256 := ready_narrow ready
  have bytes : bytesOf (stem.map Fin.val) = .ok (stemBytes stem) := by
    rw [bytesOf_ok (narrow_chunks (narrow_stem few stem)), stemBytes, List.map_map]
    rfl
  simp only [commitExtension, bytes, bind, Except.bind] at committed
  rw [commits _ p (by simpa using ready.wide) committed, extensionValues, residues_pad]

theorem station_log (commits : Commits backend logs setup k w s) (ready : Ready setup k w bits)
    {t : Trie (kzgScheme backend setup).width}
    {digits : List (Fin (kzgScheme backend setup).width)} {x : Fin (kzgScheme backend setup).width}
    {station : Station Point} (member : station ∈ stations (kzgScheme backend setup) t digits x)
    {p : Point} (point : station.point = some p) :
    logs.log (backend.curve.lift p) = aeval s (interp w (2 ^ k) (residues station.values)) := by
  induction t generalizing digits with
  | empty => simp [stations] at member
  | group stem slots =>
    simp only [stations, List.mem_cons, List.not_mem_nil, or_false] at member
    rcases member with rfl | rfl
    · exact extension_log commits ready point
    · exact array_log commits ready point
  | inner kids ih =>
    cases digits with
    | nil => simp [stations] at member
    | cons i digits =>
      rw [stations, List.mem_cons] at member
      rcases member with rfl | below
      · exact array_log commits ready point
      · exact ih i below

variable (ideal : SetupLogs logs setup k w s) (exact : logs.Lossless)
include ideal exact

theorem lossless_commits : Commits backend logs setup k w s := by
  intro values p few run
  obtain ⟨q, run', log⟩ := commitValues_log ideal exact backend.logFloor few
  rw [run] at run'
  cases run'
  exact log

omit ideal exact in
theorem claimed_true {factor : Nat → ZMod CURVE_ORDER} {claims : List (Claim Point)}
    {stops : List (Station Point)} (tells : List.Forall₂ Tells claims stops)
    (committed : ∀ station ∈ stops, ∀ p, station.point = some p →
      logs.log (backend.curve.lift p) = aeval s (interp w (2 ^ k) (residues station.values)))
    (level : Nat) : claimedFrom logs factor level claims =
      (openingsFrom w (2 ^ k) factor level stops).map (Opening.map (aeval s)) := by
  induction tells generalizing level with
  | nil => rfl
  | @cons claim station claims stops tells _ ih =>
    have log := committed station List.mem_cons_self claim.point tells.point
    rw [claimedFrom, openingsFrom, List.map_cons,
      ih fun station member => committed station (List.mem_cons_of_mem _ member)]
    congr 1
    simp only [Claim.opening, Station.opening, trueOpening, Opening.map, log, tells.index,
      tells.leaf, Station.leaf, residues]

theorem generateWitness_log {total : List Int} (totals : Totals (2 ^ k) total) :
    ∃ witness, generateWitness backend setup total = .ok witness ∧
      (s ^ 2 ^ k - 1) * logs.log (backend.curve.lift witness) = aeval s (lifted w (2 ^ k) total) := by
  obtain ⟨o, run, log⟩ := lincomb_lagrange ideal backend.logFloor totals.size totals.reduced
  refine ⟨backend.curve.normalize o, by simp only [generateWitness, run, bind, Except.bind], ?_⟩
  rw [exact, log, lifted, map_mul, map_sub, map_pow, aeval_X, map_one]

end Logs

section Proofs
variable {backend : Backend Point G1 G2 FQ12} {setup : SetupObject G1 G2} {k bits : Nat}
  {w : ZMod CURVE_ORDER} {logs : Logarithms backend.curve A} {s : A} {tree : VerkleTree Point}
  {kids : Fin (kzgScheme backend setup).width → Trie (kzgScheme backend setup).width}
  [NeZero (kzgScheme backend setup).width]
  (ideal : SetupLogs logs setup k w s) (exact : logs.Lossless)
  (grown : Grown backend setup k w bits tree kids)
include grown

omit [NeZero (kzgScheme backend setup).width] in
theorem grown_residue (p : Point) : (kzgScheme backend setup).hashPointToField p < CURVE_ORDER := by
  have order := grown.ready.lays.order
  have residue := grown.faithful.hash_residue p setup.modulus (by rw [order]; decide)
  exact Nat.lt_of_lt_of_eq residue order

/-- The commitments of the proof of a key, and what the verifier makes of them. -/
theorem key_claims {key value : Word} (found : stored backend setup kids key = some value) :
    ∃ p claims, nodePoint (kzgScheme backend setup) (.inner kids) = some p ∧
      keyClaims backend setup p (proofOf (kzgScheme backend setup) (.inner kids)
        (stemOf (kzgScheme backend setup).width key)) key value.bytes = some claims ∧
      List.Forall₂ Tells claims (keyStations backend setup kids key) := by
  have lawful := ready_lawful grown.faithful grown.ready
  obtain ⟨p, rest, claims, point, points, read, tells⟩ := honest_claims lawful
    (ready_narrow grown.ready) found
    (show ((stemOf (kzgScheme backend setup).width key).map Fin.val).drop 0 = _ from rfl)
  have proof : proofOf (kzgScheme backend setup) (.inner kids)
      (stemOf (kzgScheme backend setup).width key) = rest := by
    rw [proofOf, points, List.map_cons, List.drop_one, List.tail_cons, List.filterMap_map]
    exact List.filterMap_some
  exact ⟨p, claims, point, by rw [proof]; exact read, tells⟩

/-- The factor of the last level of a key, and how far a claimed value is off
    there. -/
noncomputable def defect (backend : Backend Point G1 G2 FQ12) (setup : SetupObject G1 G2)
    [NeZero (kzgScheme backend setup).width] (rootBytes : Bytes)
    (kids : Fin (kzgScheme backend setup).width → Trie (kzgScheme backend setup).width)
    (values claimed : Word → Word) (key : Word) : ZMod CURVE_ORDER :=
  factorAt backend.sha256 rootBytes (pathOf setup.width key.bytes) (proofOf (kzgScheme backend setup)
      (.inner kids) (stemOf (kzgScheme backend setup).width key)).length *
    (ofBytes (values key).bytes - ofBytes (claimed key).bytes)

include ideal exact

/-- What the verifier takes for a key off its claimed value. -/
theorem key_defect (rootBytes : Bytes) {values : Word → Word} {key : Word}
    (found : stored backend setup kids key = some (values key)) (claimed : Word → Word) :
    ∃ p claims, nodePoint (kzgScheme backend setup) (.inner kids) = some p ∧
      keyClaims backend setup p (proofOf (kzgScheme backend setup) (.inner kids)
        (stemOf (kzgScheme backend setup).width key)) key (claimed key).bytes = some claims ∧
      total w (2 ^ k) s (claimedOpenings logs setup rootBytes key claims) =
        aeval s (total w (2 ^ k) X (keyOpenings backend setup w k rootBytes kids key)) +
          algebraMap (ZMod CURVE_ORDER) A (defect backend setup rootBytes kids values claimed key) *
            aeval s (cofactor w (2 ^ k) (suffixOf (kzgScheme backend setup).width key).val) := by
  have lawful := ready_lawful grown.faithful grown.ready
  obtain ⟨p, claims, point, read, tells⟩ := key_claims grown found
  obtain ⟨claims', read', moved⟩ := levelClaims_moved logs w (2 ^ k) s
    (factorAt backend.sha256 rootBytes (pathOf setup.width key.bytes)) (ofBytes (claimed key).bytes)
    read
  have honest : claimedFrom logs (factorAt backend.sha256 rootBytes (pathOf setup.width key.bytes)) 0
      claims = (keyOpenings backend setup w k rootBytes kids key).map (Opening.map (aeval s)) :=
    claimed_true tells
    (fun station inside p known => station_log (lossless_commits ideal exact) grown.ready inside known) 0
  refine ⟨p, claims', point, read', ?_⟩
  rw [claimedOpenings, moved, honest, total_at, Nat.zero_add]
  rfl

/-- The verdict on the proof of stored values depends on the claimed values by
    their weighted defects only. -/
theorem proof_verdict [DecidableEq FQ12] {keys : List Word} {values : Word → Word}
    (found : ∀ key ∈ keys, stored backend setup kids key = some (values key)) :
    ∃ root rootBytes proof, nodePoint (kzgScheme backend setup) (.inner kids) = some root ∧
      backend.format.generateRootBytes root = .ok rootBytes ∧
      generateProof backend setup tree (keys.map Word.bytes) = .ok proof ∧
      ∀ claimed : Word → Word, (∀ key ∈ keys, ofBytes (claimed key).bytes ≤ CURVE_ORDER) →
        (VerkleVerification.verifyProof backend setup (keys.map fun key => (claimed key).bytes)
          (keys.map Word.bytes) root proof = .ok true ↔ (keys.map fun key =>
            algebraMap (ZMod CURVE_ORDER) A (defect backend setup rootBytes kids values claimed key) *
              aeval s (cofactor w (2 ^ k) (suffixOf (kzgScheme backend setup).width key).val)).sum =
                0) := by
  obtain ⟨root, rootBytes, total, point, bytes, gathered, totals, poly⟩ := aggregate_ok grown
    keys (fun key member => by rw [found key member]; exact Option.some_ne_none _)
  obtain ⟨witness, made, log⟩ := generateWitness_log ideal exact totals
  let proofs (key : Word) := proofOf (kzgScheme backend setup) (.inner kids)
    (stemOf (kzgScheme backend setup).width key)
  refine ⟨root, rootBytes, (keys.map proofs, witness), point, bytes, ?_, ?_⟩
  · simp only [generateProof, gathered, made, bind, Except.bind]
    rfl
  intro claimed bounded
  have read (key : Word) (member : key ∈ keys) :
      ∃ claims, keyClaims backend setup root (proofs key) key (claimed key).bytes = some claims ∧
        Openings.total w (2 ^ k) s (claimedOpenings logs setup rootBytes key claims) =
          aeval s (Openings.total w (2 ^ k) X (keyOpenings backend setup w k rootBytes kids key)) +
            algebraMap (ZMod CURVE_ORDER) A (defect backend setup rootBytes kids values claimed key) *
              aeval s (cofactor w (2 ^ k) (suffixOf (kzgScheme backend setup).width key).val) := by
    obtain ⟨p, claims, point', read, off⟩ := key_defect ideal exact grown rootBytes
      (found key member) claimed
    rw [point] at point'
    cases point'
    exact ⟨claims, read, off⟩
  let items := keys.map fun key => (proofs key, key, (claimed key).bytes)
  let claims (item : List Point × Word × Bytes) :=
    (keyClaims backend setup root item.1 item.2.1 item.2.2).getD []
  have verdict := verifyProof_iff ideal grown.ready
    (grown_residue grown) bytes items claims (by
      intro item member
      obtain ⟨key, inside, rfl⟩ := List.mem_map.mp member
      obtain ⟨known, here, _⟩ := read key inside
      simp only [claims, here, Option.getD_some]) (by
      intro item member
      obtain ⟨key, inside, rfl⟩ := List.mem_map.mp member
      exact bounded key inside) witness
  have sums : (items.map fun item => Openings.total w (2 ^ k) s
      (claimedOpenings logs setup rootBytes item.2.1 (claims item))).sum =
      aeval s (lifted w (2 ^ k) total) + (keys.map fun key =>
        algebraMap (ZMod CURVE_ORDER) A (defect backend setup rootBytes kids values claimed key) *
          aeval s (cofactor w (2 ^ k) (suffixOf (kzgScheme backend setup).width key).val)).sum := by
    rw [poly, map_list_sum, List.map_map, List.map_map, ← List.sum_map_add]
    congr 1
    apply List.map_congr_left
    intro key inside
    obtain ⟨known, here, off⟩ := read key inside
    simp only [Function.comp_apply, claims, here, Option.getD_some, off]
  rw [sums, log, add_eq_left] at verdict
  simpa only [items, List.map_map, Function.comp_def] using verdict

theorem proof_accepted [DecidableEq FQ12] (keys : List Word) (values : Word → Word)
    (found : ∀ key ∈ keys, stored backend setup kids key = some (values key))
    (bounded : ∀ key ∈ keys, ofBytes (values key).bytes ≤ CURVE_ORDER) :
    ∃ root proof, nodePoint (kzgScheme backend setup) (.inner kids) = some root ∧
      generateProof backend setup tree (keys.map Word.bytes) = .ok proof ∧
      VerkleVerification.verifyProof backend setup (keys.map fun key => (values key).bytes)
        (keys.map Word.bytes) root proof = .ok true := by
  obtain ⟨root, rootBytes, proof, point, _, generated, verdict⟩ := proof_verdict ideal exact grown found
  refine ⟨root, proof, point, generated, (verdict values bounded).mpr ?_⟩
  have none (key : Word) : defect backend setup rootBytes kids values values key = 0 := by
    rw [defect, sub_self, mul_zero]
  simp [none]

end Proofs

/- The tree of two keys of width 16, its proofs and their factors. -/
section Sample

def factorText (root : Point2D) (key : Word) (level : Nat) : Bytes :=
  (HashScheme.generateRootBytes root).toOption.getD [] ++
    (((HashScheme.pathBytes (pathOf 16 key.bytes)).toOption.getD []) ++ toBytes 2 level)

def forkDigests : List (Bytes × Bytes) :=
  pointDigests ++ [(factorText rootPoint sampleKey 0,
      toBytes 32 0x3f3b7734979e19c2359a25b6def51c4e477dfa89e22dcbecdde1c483a90db7eb),
    (factorText rootPoint sampleKey 1,
      toBytes 32 0x102bcf41d73b4cff22041be0f6ac237fbdb5dd96a993e4b93b7ab162dc427a72),
    (factorText rootPoint sampleKey 2,
      toBytes 32 0xab225427b4e541b8495d9f14b6f7acc317f82362a71bd3054e48055f6fdf9473),
    (factorText forkPoint sampleKey 0,
      toBytes 32 0x6a8a212c86a2e65eeb8552366f25eb4460b4d5f7c056ecd9aa80bb609a9a80d6),
    (factorText forkPoint sampleKey 1,
      toBytes 32 0x611556d7f8614e2637f6821a3f52f80c44bdf50c787ce3638ee90a04af037e34),
    (factorText forkPoint sampleKey 2,
      toBytes 32 0x4821136139810978e303ebaeb8b6aad4a347a0458c91bdae09dcac18385eaa39),
    (factorText forkPoint forkKey 0,
      toBytes 32 0xe69c6fe37d42ea8964b33630c038ccc4a90fee9f3720fb58a9d102be385aab0b),
    (factorText forkPoint forkKey 1,
      toBytes 32 0xdd2b910d6eb641f25e6bc920e58387dca76e5a190ee3c530366726a6de0258ae),
    (factorText forkPoint forkKey 2,
      toBytes 32 0x61d665ec11d2eb5e936bc64a8073b91e33c54e7a58b593dc182f36fcd2911e47)]

def forkSha256 (text : Bytes) : Bytes := (forkDigests.lookup text).getD (List.replicate 32 1)

def forkLogs : Logarithms forkCurve (ZMod CURVE_ORDER) := tabledLogs forkPoints

theorem forkLogs_lossless : forkLogs.Lossless := @tabledLogs_lossless forkPoints (by decide)

end Sample

/- Whole runs. -/

theorem forkRun_facts :
    (insertRun (plainScheme forkCurve sampleLogFloor forkSha256 forkZlib forkSetup)
      ([(sampleKey, sampleValue)] ++ [(forkKey, sampleValue)])).2.disk.db.Consistent ∧
    rootCommitment (insertRun (plainScheme forkCurve sampleLogFloor forkSha256 forkZlib forkSetup)
      ([(sampleKey, sampleValue)] ++ [(forkKey, sampleValue)])).2 = some forkPoint ∧
    (getProofTree (plainScheme forkCurve sampleLogFloor forkSha256 forkZlib forkSetup)
      (insertRun (plainScheme forkCurve sampleLogFloor forkSha256 forkZlib forkSetup)
        ([(sampleKey, sampleValue)] ++ [(forkKey, sampleValue)])).2
        sampleKey.bytes).toOption.map List.length = some 2 ∧
    (getProofTree (plainScheme forkCurve sampleLogFloor forkSha256 forkZlib forkSetup)
      (insertRun (plainScheme forkCurve sampleLogFloor forkSha256 forkZlib forkSetup)
        ([(sampleKey, sampleValue)] ++ [(forkKey, sampleValue)])).2
        forkKey.bytes).toOption.map List.length = some 2 := by
  rw [plainScheme_sum _ _ forkCurve_residual]
  decide +kernel

theorem forkRun_consistent :
    (insertRun (plainScheme forkCurve sampleLogFloor forkSha256 forkZlib forkSetup)
      forkRun).2.disk.db.Consistent := by
  have parts : forkRun = [(sampleKey, sampleValue)] ++ [(forkKey, sampleValue)] := rfl
  rw [parts]
  exact forkRun_facts.1

theorem forkRun_first :
    (insertRun (plainScheme forkCurve sampleLogFloor forkSha256 forkZlib forkSetup)
      [(sampleKey, sampleValue)]).2.disk.db.Consistent :=
  consistent_earlier (insertRun_earlier
    (plainScheme forkCurve sampleLogFloor forkSha256 forkZlib forkSetup)
    [(sampleKey, sampleValue)] [(forkKey, sampleValue)]) forkRun_facts.1

/-- The plain proof of inserted keys is accepted for their stored values, over
    groups of prime order with a pairing and for any secret. -/
theorem verkle_proof_complete {width : Nat} (supported : width = 16 ∨ width = 256)
    [DecidableEq FQ12] {curve : Curve Point2D G1 G2 FQ12} (logs : Logarithms curve (ZMod CURVE_ORDER))
    (exact : logs.Lossless) (logFloor : Nat → Nat) (sha256 : Bytes → Bytes) {zlib : Zlib}
    (lossless : zlib.Lossless) {secret : Nat} {setup : SetupObject G1 G2}
    (made : verkleKzgSetup curve secret width = .ok setup) (run : List (Word × Word))
    (values : ∀ e ∈ run, 0 < ofBytes e.2.bytes ∧ ofBytes e.2.bytes < CURVE_ORDER)
    (valid : (insertRun (plainScheme curve logFloor sha256 zlib setup) run).2.disk.db.Consistent)
    (entries : List (Word × Word)) (occupied : entries ≠ [])
    (inserted : ∀ e ∈ entries, lastInserted run e.1 = some e.2) :
    ∃ root proof,
      rootCommitment (insertRun (plainScheme curve logFloor sha256 zlib setup) run).2 = some root ∧
      generateProof (plainBackend curve logFloor sha256 zlib) setup
        (insertRun (plainScheme curve logFloor sha256 zlib setup) run).2
        (entries.map fun e => e.1.bytes) = .ok proof ∧
      VerkleVerification.verifyProof (plainBackend curve logFloor sha256 zlib) setup
        (entries.map fun e => e.2.bytes) (entries.map fun e => e.1.bytes) root proof = .ok true := by
  obtain ⟨k, w, bits, standard, ready⟩ := setup_ready supported made
  have positive := width_neZero (plainBackend curve logFloor sha256 zlib) ready
  have run_some : run ≠ [] := by
    intro none
    obtain ⟨e, member⟩ := List.exists_mem_of_ne_nil entries occupied
    have absent := inserted e member
    rw [none] at absent
    simp [lastInserted] at absent
  obtain ⟨kids, grown, _, answers, root⟩ := run_grown
    (plainBackend curve logFloor sha256 zlib) (plainFormat_faithful sha256 lossless) ready
    run_some valid
  let value (key : Word) := (lastInserted run key).getD key
  have known (e : Word × Word) (member : e ∈ entries) : value e.1 = e.2 := by
    simp only [value, inserted e member, Option.getD_some]
  obtain ⟨p, proof, point, generated, accepted⟩ := proof_accepted (standard_logs logs standard) exact
    grown (entries.map Prod.fst) value (by
      intro key member
      obtain ⟨e, inside, rfl⟩ := List.mem_map.mp member
      rw [answers, known e inside, inserted e inside]) (by
      intro key member
      obtain ⟨e, inside, rfl⟩ := List.mem_map.mp member
      rw [known e inside]
      exact Nat.le_of_lt (values _ (lastInserted_member (inserted e inside))).2)
  have claimed : (entries.map Prod.fst).map (fun key => (value key).bytes) =
      entries.map fun e => e.2.bytes := by
    rw [List.map_map]
    apply List.map_congr_left
    intro e inside
    rw [Function.comp_apply, known e inside]
  rw [claimed, List.map_map] at accepted
  rw [List.map_map] at generated
  exact ⟨p, proof, root.trans point, generated, accepted⟩

theorem verkle_proof_complete_sample : ∃ root proof,
    rootCommitment (insertRun (plainScheme forkCurve sampleLogFloor forkSha256 forkZlib forkSetup)
      forkRun).2 = some root ∧
    generateProof (plainBackend forkCurve sampleLogFloor forkSha256 forkZlib) forkSetup
      (insertRun (plainScheme forkCurve sampleLogFloor forkSha256 forkZlib forkSetup)
        forkRun).2 [sampleKey.bytes, forkKey.bytes] = .ok proof ∧
    VerkleVerification.verifyProof (plainBackend forkCurve sampleLogFloor forkSha256 forkZlib)
      forkSetup [sampleValue.bytes, sampleValue.bytes] [sampleKey.bytes, forkKey.bytes] root proof =
        .ok true := by
  have bounds : ∀ e ∈ forkRun, 0 < ofBytes e.2.bytes ∧ ofBytes e.2.bytes < CURVE_ORDER := by decide
  have present : ∀ e ∈ forkRun, lastInserted forkRun e.1 = some e.2 := by decide
  exact verkle_proof_complete (Or.inl rfl) forkLogs forkLogs_lossless sampleLogFloor forkSha256
    forkZlib_lossless forkSetup_made forkRun bounds forkRun_consistent forkRun
    (List.cons_ne_nil _ _) present

end VerkleCompleteness
