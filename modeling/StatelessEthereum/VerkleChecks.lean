import StatelessEthereum.VerkleOpenings

/- What the verifiers of the Verkle tree check, by logarithms: the openings they
   take from a proof add up to the witness over the whole domain. -/
namespace VerkleChecks
open Polynomial PythonError BigEndian EvaluationDomain Fft PolyUtils KzgSetup KzgScheme
open CommitmentScheme IdealCurve Openings VerkleProof VerkleOpenings VerkleVerification
open VerkleTrees hiding insert get getKeyChunks
open StemTree hiding insert lookup
open VerkleStorage VerkleKey VerkleRuns
variable {Point G1 G2 FQ12 A : Type} [CommRing A] [Algebra (ZMod CURVE_ORDER) A]

structure Claim (Point : Type) where
  point : Point
  index : Nat
  leaf : Int

section Logs
variable {curve : Curve Point G1 G2 FQ12} (logs : Logarithms curve A)
  (factor : Nat → ZMod CURVE_ORDER)

def Claim.opening (r : ZMod CURVE_ORDER) (claim : Claim Point) : Opening (ZMod CURVE_ORDER) A :=
  ⟨r, logs.log (curve.lift claim.point), claim.index, (claim.leaf : ZMod CURVE_ORDER)⟩

def claimedFrom : Nat → List (Claim Point) → List (Opening (ZMod CURVE_ORDER) A)
  | _, [] => []
  | level, claim :: rest => claim.opening logs (factor level) :: claimedFrom (level + 1) rest

theorem claimedFrom_append (level : Nat) (claims more : List (Claim Point)) :
    claimedFrom logs factor level (claims ++ more) = claimedFrom logs factor level claims ++
      claimedFrom logs factor (level + claims.length) more := by
  induction claims generalizing level with
  | nil => rfl
  | cons claim claims ih =>
    rw [List.cons_append, claimedFrom, ih, claimedFrom, List.length_cons, List.cons_append,
      show level + 1 + claims.length = level + (claims.length + 1) by omega]

theorem claimedFrom_member {curve : Curve Point G1 G2 FQ12} {logs : Logarithms curve A}
    {factor : Nat → ZMod CURVE_ORDER} {level : Nat} {claims : List (Claim Point)}
    {o : Opening (ZMod CURVE_ORDER) A} (member : o ∈ claimedFrom logs factor level claims) :
    ∃ claim ∈ claims, ∃ i < claims.length, o = claim.opening logs (factor (level + i)) := by
  induction claims generalizing level with
  | nil => simp [claimedFrom] at member
  | cons claim claims ih =>
    rw [claimedFrom, List.mem_cons] at member
    rcases member with rfl | later
    · exact ⟨claim, List.mem_cons_self, 0, Nat.zero_lt_succ _, rfl⟩
    · obtain ⟨other, inside, i, short, found⟩ := ih later
      refine ⟨other, List.mem_cons_of_mem _ inside, i + 1, Nat.succ_lt_succ short, ?_⟩
      rw [found, show level + 1 + i = level + (i + 1) by omega]

end Logs

section Pairings
variable {backend : Backend Point G1 G2 FQ12} {setup : SetupObject G1 G2} {k : Nat}
  {w : ZMod CURVE_ORDER} {logs : Logarithms backend.curve A} {s : A}
  (ideal : SetupLogs logs setup k w s)
include ideal

theorem cofactorPoint_log {idx : Nat} (inside : idx < 2 ^ k) :
    ∃ z, cofactorPoint backend setup idx = .ok z ∧
      logs.log₂ z = aeval s (cofactor w (2 ^ k) idx) := by
  have root := ideal.lays.primitive
  obtain ⟨last, lastEq, lastCast⟩ := lagrange_last ideal.lays inside
  have unit := lagrange_last_unit ideal.lays idx
  have entry := congrArg (fun l => l[idx]?) ideal.setup3
  simp only [List.getElem?_map, List.getElem?_range inside, Option.map_some] at entry
  obtain ⟨pt, found, log⟩ := Option.map_eq_some_iff.mp entry
  refine ⟨backend.curve.multiply₂ pt (inv setup.modulus last).toNat,
    by simp only [cofactorPoint, found, lastEq], ?_⟩
  have positive := (@inv_residue CURVE_ORDER _ last).1
  rw [ideal.lays.order, logs.log₂_multiply, cast_toNat positive,
    inv_cast fun zero => absurd (lastCast ▸ zero) unit, lastCast, log, interp_single root inside,
    map_mul, aeval_C, ← mul_assoc, ← map_mul, inv_mul_cancel₀ unit, map_one, one_mul]

theorem checkLevel_ok (rootBytes : Bytes) {path : List Nat} (small : ∀ i ∈ path, i < 256 ^ 2)
    {level : Nat} (shallow : level < 256 ^ 2) {idx : Nat} (inside : idx < 2 ^ k) (comm : Point)
    {leaf : Nat} (bounded : leaf ≤ CURVE_ORDER) (pairingCheck : FQ12) :
    ∃ out, checkLevel backend setup rootBytes path level idx comm leaf pairingCheck = .ok out ∧
      logs.logT out = logs.logT pairingCheck + ((⟨comm, idx, leaf⟩ : Claim Point).opening logs
        (factorAt backend.sha256 rootBytes path level)).term w (2 ^ k) s := by
  obtain ⟨r, hashed, factor⟩ := factorAt_ok backend.sha256 rootBytes small shallow
  obtain ⟨z, made, log⟩ := cofactorPoint_log ideal inside
  have positive : ¬ (CURVE_ORDER : Int) - leaf < 0 := by omega
  have scaled : ¬ (r : Int) < 0 := by omega
  refine ⟨_, by simp only [checkLevel, hashed, VerkleVerification.multiply, ideal.lays.order, positive,
    scaled, ↓reduceIte, made, bind, Except.bind]; rfl, ?_⟩
  have value : ((((CURVE_ORDER : Int) - leaf).toNat : Nat) : A) =
      - algebraMap (ZMod CURVE_ORDER) A leaf := by
    rw [cast_toNat (by omega), Int.cast_sub, Int.cast_natCast, Int.cast_natCast, ZMod.natCast_self,
      zero_sub, map_neg]
  simp only [logs.logT_mul, logs.logT_pairing, log, logs.log_multiply, logs.log_add,
    logs.log_generator, mul_one, value, Int.toNat_natCast, Claim.opening, Opening.term, ← factor,
    map_natCast, Int.cast_natCast]
  ring

end Pairings

/- The levels of one key, as the plain verifier reads them. -/

/-- Where a level is opened that is not the last: the one before the last as an
    extension, all others at the chunks of the stem. -/
def levelIndex (stem : List Nat) (level : Nat) (below : List Point) : Option Nat :=
  if below = [] then some 2 else stem[level]?

def levelClaims (hash : Point → Nat) (stem : List Nat) (suffix v : Nat) :
    Nat → Point → List Point → Option (List (Claim Point))
  | _, comm, [] => some [⟨comm, suffix, v⟩]
  | level, comm, next :: rest =>
    (levelIndex stem level rest).bind fun idx =>
      (levelClaims hash stem suffix v (level + 1) next rest).map (⟨comm, idx, hash next⟩ :: ·)

section Levels
variable {hash : Point → Nat} {stem : List Nat} {suffix v : Nat}

theorem levelClaims_cons {level : Nat} {comm next : Point} {rest : List Point}
    {claims : List (Claim Point)}
    (read : levelClaims hash stem suffix v level comm (next :: rest) = some claims) :
    ∃ idx more, levelIndex stem level rest = some idx ∧
      levelClaims hash stem suffix v (level + 1) next rest = some more ∧
      claims = ⟨comm, idx, hash next⟩ :: more := by
  rw [levelClaims, Option.bind_eq_some_iff] at read
  obtain ⟨idx, place, read⟩ := read
  obtain ⟨more, below, rfl⟩ := Option.map_eq_some_iff.mp read
  exact ⟨idx, more, place, below, rfl⟩

theorem levelClaims_length {level : Nat} {comm : Point} {rest : List Point}
    {claims : List (Claim Point)} (read : levelClaims hash stem suffix v level comm rest = some claims) :
    claims.length = rest.length + 1 := by
  induction rest generalizing level comm claims with
  | nil =>
    cases read
    rfl
  | cons next rest ih =>
    obtain ⟨idx, more, _, below, rfl⟩ := levelClaims_cons read
    rw [List.length_cons, List.length_cons, ih below]

/-- No level lies deeper than the stem has chunks, but for the last two. -/
theorem levelClaims_depth {level : Nat} {comm : Point} {rest : List Point}
    {claims : List (Claim Point)} (read : levelClaims hash stem suffix v level comm rest = some claims)
    (start : level ≤ stem.length) : level + rest.length ≤ stem.length + 1 := by
  induction rest generalizing level comm claims with
  | nil => exact Nat.le_succ_of_le start
  | cons next rest ih =>
    obtain ⟨idx, more, place, below, rfl⟩ := levelClaims_cons read
    cases rest with
    | nil =>
      rw [List.length_singleton]
      omega
    | cons last rest =>
      rw [levelIndex, if_neg (List.cons_ne_nil _ _)] at place
      have inside := (List.getElem?_eq_some_iff.mp place).1
      have rest := ih below inside
      rw [List.length_cons]
      omega

/-- What can make the levels raise: a leaf above the modulus, of all kinds only
    the claimed value. -/
theorem levelClaims_bounded {n : Nat} (wide : 2 < n) (chunks : ∀ c ∈ stem, c < n) (inside : suffix < n)
    (residue : ∀ p, hash p < CURVE_ORDER) (bounded : v ≤ CURVE_ORDER) {level : Nat} {comm : Point}
    {rest : List Point} {claims : List (Claim Point)}
    (read : levelClaims hash stem suffix v level comm rest = some claims) :
    ∀ claim ∈ claims, claim.index < n ∧ ∃ leaf : Nat, claim.leaf = leaf ∧ leaf ≤ CURVE_ORDER := by
  induction rest generalizing level comm claims with
  | nil =>
    cases read
    intro claim member
    rw [List.mem_singleton] at member
    subst member
    exact ⟨inside, v, rfl, bounded⟩
  | cons next rest ih =>
    obtain ⟨idx, more, place, below, rfl⟩ := levelClaims_cons read
    intro claim member
    rcases List.mem_cons.mp member with rfl | later
    · refine ⟨?_, hash next, rfl, Nat.le_of_lt (residue next)⟩
      by_cases last : rest = []
      · rw [levelIndex, if_pos last] at place
        cases place
        exact wide
      · rw [levelIndex, if_neg last] at place
        exact chunks idx (List.mem_of_getElem? place)
    · exact ih below claim later

theorem levelClaims_moved {curve : Curve Point G1 G2 FQ12} (logs : Logarithms curve A)
    (w : ZMod CURVE_ORDER) (n : Nat) (s : A) (factor : Nat → ZMod CURVE_ORDER) (v' : Nat)
    {level : Nat} {comm : Point} {rest : List Point} {claims : List (Claim Point)}
    (read : levelClaims hash stem suffix v level comm rest = some claims) :
    ∃ claims', levelClaims hash stem suffix v' level comm rest = some claims' ∧
      total w n s (claimedFrom logs factor level claims') =
        total w n s (claimedFrom logs factor level claims) +
          algebraMap (ZMod CURVE_ORDER) A (factor (level + rest.length) * (v - v')) *
            aeval s (cofactor w n suffix) := by
  induction rest generalizing level comm claims with
  | nil =>
    cases read
    refine ⟨_, rfl, ?_⟩
    simp only [claimedFrom, total_cons, total_nil, add_zero, List.length_nil]
    rw [term_moved s _ (v : ZMod CURVE_ORDER)]
    simp only [Claim.opening, Int.cast_natCast]
  | cons next rest ih =>
    obtain ⟨idx, more, place, below, rfl⟩ := levelClaims_cons read
    obtain ⟨more', below', moved⟩ := ih below
    refine ⟨⟨comm, idx, hash next⟩ :: more', by rw [levelClaims, place, below']; rfl, ?_⟩
    rw [claimedFrom, total_cons, moved, claimedFrom, total_cons, List.length_cons,
      show level + 1 + rest.length = level + (rest.length + 1) by omega]
    ring

end Levels

section Run
variable {backend : Backend Point G1 G2 FQ12} {setup : SetupObject G1 G2} {k : Nat}
  {w : ZMod CURVE_ORDER} {logs : Logarithms backend.curve A} {s : A}
  (ideal : SetupLogs logs setup k w s)
include ideal

theorem checkLevels_ok (rootBytes : Bytes) {path : List Nat} (small : ∀ i ∈ path, i < 256 ^ 2)
    {stem : List Nat} {suffix v level : Nat} {comm : Point} {rest : List Point}
    {claims : List (Claim Point)} (read : levelClaims
      (fun p => backend.format.hashPointToField p setup.modulus) stem suffix v level comm rest =
        some claims)
    (bounded : ∀ claim ∈ claims, claim.index < 2 ^ k ∧
      ∃ leaf : Nat, claim.leaf = leaf ∧ leaf ≤ CURVE_ORDER)
    (shallow : level + rest.length < 256 ^ 2) (pairingCheck : FQ12) :
    ∃ out, checkLevels backend setup rootBytes path stem suffix v level comm rest pairingCheck =
        .ok out ∧ logs.logT out = logs.logT pairingCheck + total w (2 ^ k) s
          (claimedFrom logs (factorAt backend.sha256 rootBytes path) level claims) := by
  induction rest generalizing level comm claims pairingCheck with
  | nil =>
    cases read
    obtain ⟨inside, leaf, same, small'⟩ := bounded _ List.mem_cons_self
    obtain rfl := Int.ofNat.inj same
    obtain ⟨out, run, log⟩ := checkLevel_ok ideal rootBytes small
      (show level < 256 ^ 2 by simpa using shallow)
      inside comm small' pairingCheck
    refine ⟨out, run, ?_⟩
    rw [log, claimedFrom, claimedFrom, total_cons, total_nil, add_zero]
  | cons next rest ih =>
    obtain ⟨idx, more, place, below, rfl⟩ := levelClaims_cons read
    rw [List.length_cons] at shallow
    obtain ⟨inside, leaf, same, small'⟩ := bounded _ List.mem_cons_self
    obtain rfl := Int.ofNat.inj same
    obtain ⟨first, run, log⟩ := checkLevel_ok ideal rootBytes small
      (show level < 256 ^ 2 by omega) inside comm small' pairingCheck
    obtain ⟨out, runs, logs⟩ := ih below
      (fun claim member => bounded claim (List.mem_cons_of_mem _ member)) (by omega) first
    refine ⟨out, ?_, ?_⟩
    · by_cases last : rest = []
      · rw [levelIndex, if_pos last] at place
        cases place
        subst last
        simp only [checkLevels, ↓reduceIte, run, bind, Except.bind]
        exact runs
      · rw [levelIndex, if_neg last] at place
        simp only [checkLevels, last, ↓reduceIte, place, run, bind, Except.bind]
        exact runs
    · rw [logs, log, claimedFrom, total_cons]
      ring

omit ideal in
/-- The levels raise where the proof is too long or the value above the modulus. -/
theorem checkLevels_inv {rootBytes : Bytes} {path stem : List Nat} {suffix v level : Nat}
    {comm : Point} {rest : List Point} {pairingCheck out : FQ12}
    (run : checkLevels backend setup rootBytes path stem suffix v level comm rest pairingCheck = .ok out) :
    v ≤ setup.modulus ∧ ∃ claims, levelClaims
      (fun p => backend.format.hashPointToField p setup.modulus) stem suffix v level comm rest =
        some claims := by
  induction rest generalizing level comm pairingCheck with
  | nil =>
    refine ⟨?_, _, rfl⟩
    obtain ⟨r, _, run⟩ := ok_of_bind run
    obtain ⟨value, scaled, _⟩ := ok_of_bind run
    unfold VerkleVerification.multiply at scaled
    split at scaled
    · simp at scaled
    · omega
  | cons next rest ih =>
    by_cases last : rest = []
    · simp only [checkLevels, last, ↓reduceIte, bind, Except.bind] at run
      obtain ⟨pairing, _, run⟩ := ok_of_bind run
      obtain ⟨bounded, claims, read⟩ := ih (by rw [last]; exact run)
      exact ⟨bounded, _, by rw [levelClaims, levelIndex, if_pos last, read]; rfl⟩
    · simp only [checkLevels, last, ↓reduceIte] at run
      cases place : stem[level]? with
      | none => simp [place, bind, Except.bind] at run
      | some idx =>
        simp only [place] at run
        obtain ⟨_, _, run⟩ := ok_of_bind run
        obtain ⟨pairing, _, run⟩ := ok_of_bind run
        obtain ⟨bounded, claims, read⟩ := ih run
        exact ⟨bounded, _, by rw [levelClaims, levelIndex, if_neg last, place, read]; rfl⟩

theorem checkWitness_ok (witness : Point) (pairingCheck : FQ12) :
    ∃ out, checkWitness backend setup witness pairingCheck = .ok out ∧ logs.logT out =
      logs.logT pairingCheck - (s ^ 2 ^ k - 1) * logs.log (backend.curve.lift witness) := by
  have power (i : Nat) (inside : i < 2 ^ k + 1) :
      ∃ pt, setup.setup1[i]? = some pt ∧ logs.log₂ pt = s ^ i := by
    have entry := congrArg (fun l => l[i]?) ideal.setup1
    simp only [List.getElem?_map, List.getElem?_range inside, Option.map_some] at entry
    exact Option.map_eq_some_iff.mp entry
  obtain ⟨top, found, log⟩ := power (2 ^ k) (Nat.lt_succ_self _)
  obtain ⟨bottom, found', log'⟩ := power 0 (Nat.succ_pos _)
  rw [← ideal.lays.size] at found
  refine ⟨_, by simp only [checkWitness, found, found']; rfl, ?_⟩
  simp only [logs.logT_mul, logs.logT_pairing, logs.log₂_neg, logs.log₂_add, log, log', pow_zero]
  ring

end Run

/- All keys. -/

section Keys
variable {backend : Backend Point G1 G2 FQ12} {setup : SetupObject G1 G2} {k bits : Nat}
  {w : ZMod CURVE_ORDER} {logs : Logarithms backend.curve A} {s : A}
  [NeZero (kzgScheme backend setup).width] (ideal : SetupLogs logs setup k w s)
  (ready : Ready setup k w bits)
  (residue : ∀ p, (kzgScheme backend setup).hashPointToField p < CURVE_ORDER)

/-- What the plain verifier takes from its input for one key. -/
def keyClaims (backend : Backend Point G1 G2 FQ12) (setup : SetupObject G1 G2)
    [NeZero (kzgScheme backend setup).width] (root : Point) (commitments : List Point) (key : Word)
    (value : Bytes) : Option (List (Claim Point)) :=
  levelClaims (kzgScheme backend setup).hashPointToField
    ((stemOf (kzgScheme backend setup).width key).map Fin.val)
    (suffixOf (kzgScheme backend setup).width key).val (ofBytes value) 0 root commitments

/-- The openings that a verifier takes from its input for one key. -/
def claimedOpenings (logs : Logarithms backend.curve A) (setup : SetupObject G1 G2)
    (rootBytes : Bytes) (key : Word) (claims : List (Claim Point)) :
    List (Opening (ZMod CURVE_ORDER) A) :=
  claimedFrom logs (factorAt backend.sha256 rootBytes (pathOf setup.width key.bytes)) 0 claims

include ready

variable (backend) in
theorem verifier_chunks (key : Word) : ∃ chunks,
    VerkleVerification.getKeyChunks key.bytes setup.width = .ok chunks ∧
    chunks.getLast? = some (suffixOf (kzgScheme backend setup).width key).val ∧
    chunks.dropLast = (stemOf (kzgScheme backend setup).width key).map Fin.val := by
  have aligned : Aligned (kzgScheme backend setup).width bits := ready.aligned
  obtain ⟨chunks, cut, last, front⟩ := chunks_ok backend ready key
  have positive : setup.width ≠ 0 := Nat.ne_of_gt (width_positive ready.aligned.toCuts)
  have some : setup.width.log2 ≠ 0 :=
    bits_eq ready.aligned.toCuts ▸ Nat.ne_of_gt ready.aligned.positive
  rw [getKeyChunks_ok ready.aligned.toCuts] at cut
  cases cut
  exact ⟨_, by rw [VerkleVerification.getKeyChunks, if_neg positive, if_neg some], last, front⟩

include residue

/-- What the plain verifier takes from its input lies in the domain. -/
theorem keyClaims_bounded {root : Point} {commitments : List Point} {key : Word} {value : Bytes}
    (bounded : ofBytes value ≤ CURVE_ORDER) {claims : List (Claim Point)}
    (read : keyClaims backend setup root commitments key value = some claims) :
    ∀ claim ∈ claims, claim.index < 2 ^ k ∧ ∃ leaf : Nat, claim.leaf = leaf ∧ leaf ≤ CURVE_ORDER := by
  have width : (kzgScheme backend setup).width = 2 ^ k := ready.lays.size
  have wide := ready.wide
  have chunks : ∀ c ∈ (stemOf (kzgScheme backend setup).width key).map Fin.val, c < 2 ^ k := by
    intro c member
    obtain ⟨digit, _, rfl⟩ := List.mem_map.mp member
    exact width ▸ digit.isLt
  exact levelClaims_bounded (by omega) chunks
    (width ▸ (suffixOf (kzgScheme backend setup).width key).isLt) residue bounded read

include ideal

theorem checkKey_ok (rootBytes : Bytes) {root : Point} {commitments : List Point} {key : Word}
    {value : Bytes} (bounded : ofBytes value ≤ CURVE_ORDER) {claims : List (Claim Point)}
    (read : keyClaims backend setup root commitments key value = some claims)
    (pairingCheck : FQ12) :
    ∃ out, checkKey backend setup rootBytes root pairingCheck (commitments, key.bytes, ofBytes value,
        pathOf setup.width key.bytes) = .ok out ∧
      logs.logT out = logs.logT pairingCheck +
        total w (2 ^ k) s (claimedOpenings logs setup rootBytes key claims) := by
  obtain ⟨chunks, cut, last, front⟩ := verifier_chunks backend ready key
  have aligned : Aligned (kzgScheme backend setup).width bits := ready.aligned
  have limits := keyClaims_bounded ready residue bounded read
  have deep := levelClaims_depth read (Nat.zero_le _)
  have size := stemOf_length aligned.toCuts key
  have few := Nat.div_le_self 256 (kzgScheme backend setup).width.log2
  rw [List.length_map, size, depth] at deep
  obtain ⟨out, run, log⟩ := checkLevels_ok ideal rootBytes (pathOf_ok ready key.bytes).2 read limits
    (by omega) pairingCheck
  refine ⟨out, ?_, log⟩
  simp only [checkKey, cut, last, front, bind, Except.bind]
  exact run

/-- The plain verifier accepts if and only if what it takes from its input adds
    up to the witness over the whole domain. -/
theorem verifyProof_iff [DecidableEq FQ12] {root : Point} {rootBytes : Bytes}
    (bytes : backend.format.generateRootBytes root = .ok rootBytes)
    (items : List (List Point × Word × Bytes)) (claims : List Point × Word × Bytes → List (Claim Point))
    (read : ∀ item ∈ items,
      keyClaims backend setup root item.1 item.2.1 item.2.2 = some (claims item))
    (bounded : ∀ item ∈ items, ofBytes item.2.2 ≤ CURVE_ORDER) (witness : Point) :
    VerkleVerification.verifyProof backend setup (items.map fun item => item.2.2)
        (items.map fun item => item.2.1.bytes) root (items.map fun item => item.1, witness) = .ok true ↔
      (items.map fun item =>
        total w (2 ^ k) s (claimedOpenings logs setup rootBytes item.2.1 (claims item))).sum =
          (s ^ 2 ^ k - 1) * logs.log (backend.curve.lift witness) := by
  have paths := mapM_map_ok (l := items) (h := fun item => item.2.1.bytes)
    fun item _ => (pathOf_ok ready item.2.1.bytes).1
  obtain ⟨r, derived⟩ := HashScheme.deriveR_ok backend.sha256 rootBytes
    (items.map fun item => pathOf setup.width item.2.1.bytes) (by
      intro path member
      obtain ⟨item, _, rfl⟩ := List.mem_map.mp member
      exact (pathOf_ok ready item.2.1.bytes).2) CURVE_ORDER
  obtain ⟨out, run, _, log⟩ := foldlM_adds (fun _ => True) logs.logT (l := items)
    (f := fun out (item : List Point × Word × Bytes) => checkKey backend setup rootBytes root out
      (item.1, item.2.1.bytes, ofBytes item.2.2, pathOf setup.width item.2.1.bytes))
    (fun item member out _ => by
      obtain ⟨next, run, log⟩ := checkKey_ok ideal ready residue rootBytes (bounded item member)
        (read item member) out
      exact ⟨next, run, trivial, log⟩)
    (s := backend.curve.one) trivial
  obtain ⟨final, last, log'⟩ := checkWitness_ok ideal witness out
  have zipped : (items.map fun item => item.1).zip ((items.map fun item => item.2.1.bytes).zip
      (((items.map fun item => item.2.2).map ofBytes).zip
        (items.map fun item => pathOf setup.width item.2.1.bytes))) =
      items.map fun item =>
        (item.1, item.2.1.bytes, ofBytes item.2.2, pathOf setup.width item.2.1.bytes) := by
    rw [List.map_map, List.zip_map', List.zip_map', List.zip_map']
    rfl
  simp only [VerkleVerification.verifyProof, paths, bytes, derived, zipped, List.foldlM_map, run, last,
    bind, Except.bind]
  rw [log, logs.logT_one, zero_add] at log'
  have equation : backend.curve.finalExponentiate final = backend.curve.one ↔
      (items.map fun item =>
        total w (2 ^ k) s (claimedOpenings logs setup rootBytes item.2.1 (claims item))).sum =
          (s ^ 2 ^ k - 1) * logs.log (backend.curve.lift witness) := by
    rw [logs.final, log', sub_eq_zero]
  by_cases one : backend.curve.finalExponentiate final = backend.curve.one
  · simp only [one, ↓reduceIte, true_iff]
    exact equation.mp one
  · simp only [one, ↓reduceIte, reduceCtorEq, false_iff]
    exact fun same => one (equation.mpr same)

end Keys

end VerkleChecks
