import StatelessEthereum.FirstInsert
import StatelessEthereum.VerkleSoundness

/- What the plain verifier accepts for a stored key when the commitments are as
   many as those of the key's own path. -/
namespace PathSoundness
open Polynomial PythonError BigEndian EvaluationDomain Fft KzgSetup KzgScheme
open HashScheme IdealCurve Openings VerkleProof VerkleOpenings VerkleChecks VerkleCompleteness PolynomialCurve
open VerkleTrees hiding insert get getKeyChunks
open StemTree hiding insert lookup
open VerkleStorage VerkleKey VerkleRuns VerkleSerialization VerkleSoundness
variable {Point G1 G2 FQ12 : Type}

/- Two readings of the levels of a key. -/
section Levels
variable {hash : Point → Nat} {stem : List Nat} {suffix v v' : Nat}

theorem levelClaims_indices {level : Nat} {comm next : Point} {rest : List Point}
    {claims : List (Claim Point)}
    (read : levelClaims hash stem suffix v level comm (next :: rest) = some claims) :
    claims.map Claim.index = (stem.drop level).take rest.length ++ [2, suffix] := by
  induction rest generalizing level comm next claims with
  | nil =>
    obtain ⟨idx, more, place, below, rfl⟩ := levelClaims_cons read
    cases place
    cases below
    rfl
  | cons last rest ih =>
    obtain ⟨idx, more, place, below, rfl⟩ := levelClaims_cons read
    rw [levelIndex, if_neg (List.cons_ne_nil _ _)] at place
    obtain ⟨inside, rfl⟩ := List.getElem?_eq_some_iff.mp place
    rw [List.map_cons, ih below, List.drop_eq_getElem_cons inside, List.length_cons,
      List.take_succ_cons, List.cons_append]

/-- True openings of one length determine each other from the top, where no two
    commitments have one hash. -/
theorem levels_determined (value : Point → Nat → ZMod CURVE_ORDER)
    (residue : ∀ p, hash p < CURVE_ORDER) {level : Nat} {comm : Point} {rest rest' : List Point}
    (size : rest.length = rest'.length) (free : ∀ p ∈ rest, ∀ q ∈ rest', hash p = hash q → p = q)
    {claims claims' : List (Claim Point)}
    (read : levelClaims hash stem suffix v level comm rest = some claims)
    (read' : levelClaims hash stem suffix v' level comm rest' = some claims')
    (exact : ∀ claim ∈ claims, value claim.point claim.index = claim.leaf)
    (exact' : ∀ claim ∈ claims', value claim.point claim.index = claim.leaf) : rest = rest' := by
  induction rest generalizing level comm rest' claims claims' with
  | nil => exact (List.eq_nil_of_length_eq_zero size.symm).symm
  | cons next rest ih =>
    cases rest' with
    | nil => simp at size
    | cons next' rest' =>
      obtain ⟨idx, more, place, below, rfl⟩ := levelClaims_cons read
      obtain ⟨idx', more', place', below', rfl⟩ := levelClaims_cons read'
      have below_size := Nat.succ.inj size
      have last : rest = [] ↔ rest' = [] := by
        rw [← List.length_eq_zero_iff, ← List.length_eq_zero_iff, below_size]
      have places : levelIndex stem level rest = levelIndex stem level rest' := by
        simp only [levelIndex, last]
      have point : idx = idx' := Option.some.inj (place.symm.trans (places.trans place'))
      subst point
      have top := exact _ List.mem_cons_self
      have top' := exact' _ List.mem_cons_self
      simp only [Int.cast_natCast] at top top'
      have hashed := residues_equal (residue next) (residue next') (top.symm.trans top')
      obtain rfl := free next List.mem_cons_self next' List.mem_cons_self hashed
      rw [ih below_size (fun p member q member' => free p (List.mem_cons_of_mem _ member) q
        (List.mem_cons_of_mem _ member')) below below'
        (fun claim member => exact claim (List.mem_cons_of_mem _ member))
        fun claim member => exact' claim (List.mem_cons_of_mem _ member)]

variable {curve : Curve Point G1 G2 FQ12} (logs : Logarithms curve (ZMod CURVE_ORDER)[X])

/-- Another value moves the error at the last point of the key only. -/
theorem claimed_error (w : ZMod CURVE_ORDER) (factor : Nat → ZMod CURVE_ORDER) (i : Nat)
    {level : Nat} {comm : Point} {rest : List Point} {claims claims' : List (Claim Point)}
    (read : levelClaims hash stem suffix v level comm rest = some claims)
    (read' : levelClaims hash stem suffix v' level comm rest = some claims') :
    errorAt w (claimedFrom logs factor level claims) i =
      errorAt w (claimedFrom logs factor level claims') i +
        if suffix = i then factor (level + rest.length) * ((v' : ZMod CURVE_ORDER) - v) else 0 := by
  induction rest generalizing level comm claims claims' with
  | nil =>
    cases read
    cases read'
    simp only [claimedFrom, errorAt_cons, errorAt_nil, Claim.opening, Opening.error, Int.cast_natCast,
      List.length_nil, add_zero]
    by_cases here : suffix = i
    · simp only [here, ↓reduceIte]
      ring
    · simp only [here, ↓reduceIte, add_zero]
  | cons next rest ih =>
    obtain ⟨idx, more, place, below, rfl⟩ := levelClaims_cons read
    obtain ⟨idx', more', place', below', rfl⟩ := levelClaims_cons read'
    obtain rfl := Option.some.inj (place.symm.trans place')
    rw [claimedFrom, errorAt_cons, ih below below', claimedFrom, errorAt_cons, List.length_cons,
      show level + 1 + rest.length = level + (rest.length + 1) by omega]
    ring

omit curve logs in
theorem errorAt_true {w : ZMod CURVE_ORDER} {os : List (Opening (ZMod CURVE_ORDER) (ZMod CURVE_ORDER)[X])}
    (exact : ∀ o ∈ os, o.error w = 0) (i : Nat) : errorAt w os i = 0 := by
  induction os with
  | nil => rfl
  | cons o os ih =>
    rw [List.forall_mem_cons] at exact
    rw [errorAt_cons, exact.1, ite_self, zero_add, ih exact.2]

end Levels

section Path
variable {width k bits : Nat} {w : ZMod CURVE_ORDER}
  {backend : Backend (LowPolynomial width) (ZMod CURVE_ORDER)[X] (ZMod CURVE_ORDER)[X]
    (ZMod CURVE_ORDER)[X]}
  {setup : SetupObject (ZMod CURVE_ORDER)[X] (ZMod CURVE_ORDER)[X]}
  {logs : Logarithms backend.curve (ZMod CURVE_ORDER)[X]}

def openedPoints (scheme : Scheme Point) [NeZero scheme.width] (key : Word) (count : Nat) : List Nat :=
  ((stemOf scheme.width key).map Fin.val).take (count - 1) ++ [2, (suffixOf scheme.width key).val]

/-- Commitments are those of the key's path, or as many, opened at different
    points and none of them with the hash of another node of the path. -/
def FollowsPath (scheme : Scheme Point) [NeZero scheme.width] (tree : VerkleTree Point) (key : Word)
    (commitments : List Point) : Prop :=
  ∃ own, getProofTree scheme tree key.bytes = .ok own ∧ (commitments = own ∨
    commitments.length = own.length ∧ (openedPoints scheme key commitments.length).Nodup ∧
      ∀ p ∈ commitments, ∀ q ∈ own, scheme.hashPointToField p = scheme.hashPointToField q → p = q)

variable (same : ∀ p, logs.log (backend.curve.lift p) = p.poly)
  (commits : Commits backend logs setup k w X)
include same commits

theorem tells_exact (ready : Ready setup k w bits) {t : Trie (kzgScheme backend setup).width}
    {digits : List (Fin (kzgScheme backend setup).width)} {x : Fin (kzgScheme backend setup).width}
    {station : Station (LowPolynomial width)}
    (member : station ∈ stations (kzgScheme backend setup) t digits x)
    {claim : Claim (LowPolynomial width)} (tells : Tells claim station) :
    claim.point.poly.eval (w ^ claim.index) = (claim.leaf : ZMod CURVE_ORDER) := by
  have log := station_log commits ready member tells.point
  rw [same, aeval_X_left_apply] at log
  rw [log, tells.index, interp_eval ready.lays.primitive
    (stations_fit backend ready t digits x station member).2, tells.leaf]
  rfl

theorem claims_exact (ready : Ready setup k w bits) {claims : List (Claim (LowPolynomial width))}
    {stops : List (Station (LowPolynomial width))} (tells : List.Forall₂ Tells claims stops)
    {t : Trie (kzgScheme backend setup).width}
    {digits : List (Fin (kzgScheme backend setup).width)} {x : Fin (kzgScheme backend setup).width}
    (inside : ∀ station ∈ stops, station ∈ stations (kzgScheme backend setup) t digits x) :
    ∀ claim ∈ claims, claim.point.poly.eval (w ^ claim.index) = (claim.leaf : ZMod CURVE_ORDER) := by
  induction tells with
  | nil => simp
  | cons told _ ih =>
    rw [List.forall_mem_cons]
    exact ⟨tells_exact same commits ready (inside _ List.mem_cons_self) told,
      ih fun station member => inside station (List.mem_cons_of_mem _ member)⟩

variable [NeZero (kzgScheme backend setup).width] {tree : VerkleTree (LowPolynomial width)}
  {kids : Fin (kzgScheme backend setup).width → Trie (kzgScheme backend setup).width}
  (grown : Grown backend setup k w bits tree kids) (sha_nonzero : ∀ rootBytes path level,
  deriveRFactorHash backend.sha256 rootBytes path level CURVE_ORDER ≠ .ok 0)
include grown sha_nonzero

/-- Along the path of a stored key no other value can be claimed without an error. -/
theorem path_determined {root : LowPolynomial width}
    (point : nodePoint (kzgScheme backend setup) (.inner kids) = some root) {rootBytes : Bytes}
    {key value held : Word} (found : stored backend setup kids key = some held)
    (small : ofBytes held.bytes < CURVE_ORDER) (bounded : ofBytes value.bytes < CURVE_ORDER)
    {commitments : List (LowPolynomial width)}
    (follows : FollowsPath (kzgScheme backend setup) tree key commitments)
    (cancel : ErrorsCancel backend logs setup w rootBytes root commitments key value) :
    ofBytes value.bytes = ofBytes held.bytes := by
  have residue := grown_residue grown
  have size : (kzgScheme backend setup).width = 2 ^ k := grown.ready.lays.size
  obtain ⟨p, claims, point', read, tells⟩ := key_claims grown found
  obtain rfl : root = p := Option.some.inj (point.symm.trans point')
  have exact := claims_exact same commits grown.ready tells fun _ member => member
  have known : stored backend setup kids key ≠ none := by simp [found]
  have levels := proofOf_length grown known
  have two := lands_stations (kzgScheme backend setup) (lookup_lands known)
    (suffixOf (kzgScheme backend setup).width key)
  have few := keyStations_length grown key
  have shallow := pathOf_ok grown.ready key.bytes
  have unit {level : Nat} (inside : level ≤ 257) :
      factorAt backend.sha256 rootBytes (pathOf setup.width key.bytes) level ≠ 0 :=
    factor_unit backend.sha256 rootBytes shallow.2 (by omega) (sha_nonzero _ _ _)
  obtain ⟨own, walked, path⟩ := follows
  obtain rfl : _ = own := Except.ok.inj ((getProofTree_ok grown key).symm.trans walked)
  obtain ⟨claimed, read', cancel⟩ := cancel
  -- other commitments at different points are those of the path
  have equal : commitments = proofOf (kzgScheme backend setup) (.inner kids)
      (stemOf (kzgScheme backend setup).width key) := by
    rcases path with own | ⟨count, apart, free⟩
    · exact own
    · rw [keyStations] at levels
      have length := levelClaims_length read'
      have points : (claimed.map Claim.index).Nodup := by
        obtain ⟨next, rest, shape⟩ :=
          List.exists_cons_of_length_pos (show 0 < commitments.length by omega)
        rw [shape] at read' apart
        rw [levelClaims_indices read']
        exact apart
      have levels_true := (levels_apart grown.ready residue same read' (Nat.le_of_lt bounded) points
        fun level inside => unit (by rw [keyStations] at few; omega)).mp ⟨claimed, read', cancel⟩
      exact levels_determined (fun p i => p.poly.eval (w ^ i)) residue count free read' read
        levels_true exact
  subst equal
  let factor := factorAt backend.sha256 rootBytes (pathOf setup.width key.bytes)
  let suffix := (suffixOf (kzgScheme backend setup).width key).val
  have inside : suffix < setup.width := (suffixOf (kzgScheme backend setup).width key).isLt
  have none : errorAt w (claimedFrom logs factor 0 claims) suffix = 0 := by
    apply errorAt_true
    intro o member
    obtain ⟨claim, listed, level, _, rfl⟩ := claimedFrom_member member
    rw [Opening.error, Claim.opening, same, exact claim listed, sub_self, mul_zero]
  have moved := claimed_error logs w factor suffix read' read
  have zero := cancel suffix inside
  rw [claimedOpenings, moved, none, zero_add, if_pos rfl, mul_eq_zero] at zero
  have equal := sub_eq_zero.mp (zero.resolve_left (unit (by omega)))
  exact (residues_equal small bounded equal).symm

end Path

/-- Whatever is accepted for a key and a value, the tree has that value. -/
def SingleSound [DecidableEq FQ12] (backend : Backend Point G1 G2 FQ12) (setup : SetupObject G1 G2)
    (tree : VerkleTree Point) (key value : Word) (commitments : List Point) : Prop :=
  ∀ root witness, rootCommitment tree = some root →
    VerkleVerification.verifyProof backend setup [value.bytes] [key.bytes] root
      ([commitments], witness) = .ok true →
    VerkleTrees.get (kzgScheme backend setup) tree key.bytes = .ok (some (ofBytes value.bytes))

/-- Along the path of a stored key the verifier is sound. -/
theorem single_sound_path (logFloor : Nat → Nat) (sha256 : Bytes → Bytes)
    (hash : LowPolynomial 256 → Nat) (codec : Codec (LowPolynomial 256))
    (faithful : Faithful (hashedFormat hash codec))
    (sha_nonzero : ∀ rootBytes path level,
      deriveRFactorHash sha256 rootBytes path level CURVE_ORDER ≠ .ok 0)
    (run : List (Word × Word))
    (values : ∀ e ∈ run, 0 < ofBytes e.2.bytes ∧ ofBytes e.2.bytes < CURVE_ORDER)
    (valid : (insertRun (kzgScheme (polynomialBackend 256 logFloor sha256 hash codec)
      (polynomialSetup (tablesOf 256))) run).2.disk.db.Consistent)
    (key value : Word) (bounded : 0 < ofBytes value.bytes ∧ ofBytes value.bytes < CURVE_ORDER)
    (inserted : lastInserted run key ≠ none) (commitments : List (LowPolynomial 256))
    (follows : FollowsPath (kzgScheme (polynomialBackend 256 logFloor sha256 hash codec)
      (polynomialSetup (tablesOf 256))) (insertRun (kzgScheme (polynomialBackend 256 logFloor sha256
        hash codec) (polynomialSetup (tablesOf 256))) run).2 key commitments) :
    SingleSound (polynomialBackend 256 logFloor sha256 hash codec) (polynomialSetup (tablesOf 256))
      (insertRun (kzgScheme (polynomialBackend 256 logFloor sha256 hash codec)
        (polynomialSetup (tablesOf 256))) run).2 key value commitments := by
  obtain ⟨k, bits, size, ready, ideal⟩ := polynomial_ready (Or.inr rfl : 256 = 16 ∨ 256 = 256)
  obtain ⟨held, answer⟩ := Option.ne_none_iff_exists'.mp inserted
  have occupied : run ≠ [] := by
    intro none
    simp [none, lastInserted] at answer
  obtain ⟨kids, grown, _, answers, root_eq⟩ := run_grown
    (polynomialBackend 256 logFloor sha256 hash codec) faithful ready occupied valid
  intro root witness named accepted
  have commits : Commits (polynomialBackend 256 logFloor sha256 hash codec) (polynomialLogs 256)
      (polynomialSetup (tablesOf 256)) k (rootOf 256) X := by
    intro values p few run
    rw [aeval_X_left_apply]
    exact committed_poly size ideal logFloor few run
  have found := (answers key).trans answer
  have cancel := ((accepted_iff (polynomialBackend 256 logFloor sha256 hash codec) ideal ready
    (grown_residue grown) (fun _ => rfl) size root rfl commitments key value).mp
      ⟨witness, accepted⟩).2
  have equal := path_determined (fun _ => rfl) commits grown sha_nonzero
    (root_eq.symm.trans named) found (values _ (lastInserted_member answer)).2 bounded.2 follows cancel
  rw [grown_get grown, found, Option.map_some, equal]

/- The tree of one key. -/
section Stray

theorem single_words {width : Nat} (x : Fin width) (w : Word) :
    childList (single x w.bytes) = childList (single x w) := by
  rw [childList, childList]
  congr 1
  funext j
  by_cases here : j = x <;> simp [single_apply, here]

variable {setup : SetupObject (ZMod CURVE_ORDER)[X] (ZMod CURVE_ORDER)[X]} {k bits : Nat}
  (ready : Ready setup k (rootOf 256) bits) (size : 256 = 2 ^ k)
  (ideal : SetupLogs (polynomialLogs 256) setup k (rootOf 256) X)
include ready size ideal

omit size ideal in
theorem stray_reference {p : LowPolynomial 256} {n : Nat} (hashed : strayHash p = n)
    (small : n < CURVE_ORDER) :
    (pointRef (kzgScheme strayBackend setup) p).bytes = toBytes 32 n := by
  have order : setup.modulus = CURVE_ORDER := ready.lays.order
  have residue : (kzgScheme strayBackend setup).hashPointToField p = strayHash p % setup.modulus := rfl
  have number : (kzgScheme strayBackend setup).hashPointToField p = n := by
    rw [residue, hashed, order, Nat.mod_eq_of_lt small]
  exact congrArg (toBytes 32) number

theorem stray_consistent [NeZero (kzgScheme strayBackend setup).width] :
    (insertRun (kzgScheme strayBackend setup) [(sampleKey, sampleValue)]).2.disk.db.Consistent := by
  have lawful := stray_lawful ready
  have aligned : Aligned (kzgScheme strayBackend setup).width bits := ready.aligned
  have width : (kzgScheme strayBackend setup).width = 256 := ready.lays.size.trans size.symm
  have split : splitKey 256 sampleKey.bytes = .ok (List.replicate 31 18, 18) := by decide
  obtain ⟨stem, suffix⟩ := stray_split ready size split
  cases shape : stemOf (kzgScheme strayBackend setup).width sampleKey with
  | nil => simp [shape] at stem
  | cons i below =>
    rw [shape, List.map_cons] at stem
    have here : i.val = 18 := (List.cons.inj stem).1
    let first : Fin (kzgScheme strayBackend setup).width := ⟨0, by omega⟩
    have apart : first ≠ i := by
      intro same
      rw [← same] at here
      exact Nat.noConfusion here
    have same : suffixOf (kzgScheme strayBackend setup).width sampleKey = i :=
      Fin.ext (suffix.trans here.symm)
    have readable : Readable (childList (single i sampleValue.bytes)) :=
      FirstInsert.single_readable i (Nat.le_of_eq sampleValue.size)
    obtain ⟨p, q, r, t, committed, committed', committed'', ran, valid, _⟩ :=
      FirstInsert.first_insert lawful aligned.toCuts (Nat.le_of_eq width) shape same fun p =>
        lawful.array_lossless PREFIX_SUFFIX p (childList (single i sampleValue.bytes)) (Or.inr rfl)
          (childList_length _) readable
    rw [single_words] at committed
    have suffixHash : strayHash p = 15 := array_hash ready size ideal
      (by rw [arrayPoint, committed]; rfl) here rfl (n := 7) (by decide)
      (by rw [single_apply, if_pos rfl]; rfl) (by rw [single_apply, if_neg apart])
    have extension : VerkleStorage.extensionPoint (kzgScheme strayBackend setup) below
        (some (pointRef (kzgScheme strayBackend setup) p)) = some q := by
      rw [VerkleStorage.extensionPoint, Option.map_some, committed']
      rfl
    have extensionHash := extension_hash ready size ideal extension
    have named := stray_reference ready extensionHash (by decide)
    have reference : pointRef (kzgScheme strayBackend setup) q = ⟨toBytes 32 2, toBytes_length _ _⟩ :=
      (Word.mk.injEq ..).mpr named
    have rootHash : strayHash r = 5 := array_hash ready size ideal
      (f := FirstInsert.onlyChild i (pointRef _ q)) (by rw [arrayPoint, committed'']; rfl) here rfl
      (n := 2) (by decide) (by rw [FirstInsert.onlyChild, single_apply, if_pos rfl, reference])
      (by rw [FirstInsert.onlyChild, single_apply, if_neg apart])
    have consistent := by
      rw [stray_reference ready suffixHash (by decide), named,
        stray_reference ready rootHash (by decide)] at valid
      exact valid (by decide) (by decide) (by decide)
    have whole : insertRun (kzgScheme strayBackend setup) [(sampleKey, sampleValue)] = (.ok (), t) := by
      have empty : (insertRun (kzgScheme strayBackend setup) ([] : List (Word × Word))).1 = .ok () := rfl
      exact (insertRun_append empty (sampleKey, sampleValue)).trans ran
    rw [whole]
    exact consistent

end Stray

theorem strayBackend_nonzero (rootBytes : Bytes) (path : List Nat) (level : Nat) :
    deriveRFactorHash (fun _ => List.replicate 32 1) rootBytes path level CURVE_ORDER ≠ .ok 0 := by
  intro zero
  obtain ⟨bytes, _, run⟩ := ok_of_bind zero
  obtain ⟨levelBytes, _, run⟩ := ok_of_bind run
  have digest : ofBytes (List.replicate 32 1) % CURVE_ORDER ≠ 0 := by decide
  exact digest (Except.ok.inj run)

theorem single_sound_path_sample : ∃ own,
    getProofTree (kzgScheme strayBackend (polynomialSetup (tablesOf 256)))
      (insertRun (kzgScheme strayBackend (polynomialSetup (tablesOf 256)))
        [(sampleKey, sampleValue)]).2 sampleKey.bytes = .ok own ∧
    SingleSound strayBackend (polynomialSetup (tablesOf 256))
      (insertRun (kzgScheme strayBackend (polynomialSetup (tablesOf 256)))
        [(sampleKey, sampleValue)]).2 sampleKey strayValue own := by
  obtain ⟨k, bits, size, ready, ideal⟩ := polynomial_ready (Or.inr rfl : 256 = 16 ∨ 256 = 256)
  have valid := stray_consistent ready size ideal
  have faithful : Faithful strayBackend.format := losslessCodec_faithful (LowPolynomial 256) strayHash
  obtain ⟨kids, grown, _⟩ := run_grown strayBackend faithful ready (List.cons_ne_nil _ _) valid
  have walked := getProofTree_ok grown sampleKey
  refine ⟨_, walked, ?_⟩
  have bounds : ∀ e ∈ [(sampleKey, sampleValue)],
      0 < ofBytes e.2.bytes ∧ ofBytes e.2.bytes < CURVE_ORDER := by decide
  have bounded : 0 < ofBytes strayValue.bytes ∧ ofBytes strayValue.bytes < CURVE_ORDER := by decide
  have present : lastInserted [(sampleKey, sampleValue)] sampleKey ≠ none := by decide
  unfold strayBackend at faithful valid walked ⊢
  exact single_sound_path sampleLogFloor (fun _ => List.replicate 32 1) strayHash _ faithful
    strayBackend_nonzero [(sampleKey, sampleValue)] bounds valid sampleKey strayValue bounded present
    _ ⟨_, walked, Or.inl rfl⟩

end PathSoundness
