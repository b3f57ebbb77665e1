import StatelessEthereum.VerkleCompleteness

/- What an accepted Verkle batch proof tells about its claimed values. All keys
   share one equation, so the errors of two of them can cancel. -/
namespace VerkleBinding
open Polynomial PythonError BigEndian PutLog EvaluationDomain KzgSetup KzgScheme HashScheme
open PolyUtils IdealCurve Openings VerkleProof VerkleOpenings VerkleChecks VerkleCompleteness
open VerkleTrees hiding insert get getKeyChunks
open VerkleStorage VerkleKey VerkleRuns VerkleSerialization
variable {Point G1 G2 FQ12 : Type}

def residueWord (x : ZMod CURVE_ORDER) : Word := ⟨toBytes 32 x.val, toBytes_length _ _⟩

theorem residueWord_value (x : ZMod CURVE_ORDER) : ofBytes (residueWord x).bytes = x.val := by
  have small : x.val < CURVE_ORDER := ZMod.val_lt x
  exact ofBytes_toBytes_of_lt (Nat.lt_trans small (by decide))

theorem residueWord_small (x : ZMod CURVE_ORDER) : ofBytes (residueWord x).bytes < CURVE_ORDER := by
  rw [residueWord_value]
  exact ZMod.val_lt x

theorem residueWord_cast (x : ZMod CURVE_ORDER) :
    (ofBytes (residueWord x).bytes : ZMod CURVE_ORDER) = x := by
  rw [residueWord_value, ZMod.natCast_val, ZMod.cast_id]

theorem first_two {α : Type} {l : List α} (many : 2 ≤ l.length) :
    ∃ a b rest, l = a :: b :: rest := by
  match l, many with
  | a :: b :: rest, _ => exact ⟨a, b, rest, rfl⟩

/- One equation for all keys. -/
section Equation
variable {keys : List Word} {weight : Word → ZMod CURVE_ORDER} {value : Word → Nat}

/-- The weighted errors of the claimed values add up to nothing. -/
def Balanced (keys : List Word) (weight : Word → ZMod CURVE_ORDER) (value : Word → Nat)
    (claimed : Word → Word) : Prop :=
  (keys.map fun key => weight key * ((value key : ZMod CURVE_ORDER) -
    ofBytes (claimed key).bytes)).sum = 0

theorem balanced_exact {claimed : Word → Word}
    (same : ∀ key ∈ keys, (ofBytes (claimed key).bytes : ZMod CURVE_ORDER) = value key) :
    Balanced keys weight value claimed := by
  have none : ∀ key ∈ keys, weight key * ((value key : ZMod CURVE_ORDER) -
      ofBytes (claimed key).bytes) = 0 := by
    intro key member
    rw [same key member, sub_self, mul_zero]
  rw [Balanced, List.map_congr_left none, List.map_const', List.sum_replicate, smul_zero]

def crossed (weight : Word → ZMod CURVE_ORDER) (value : Word → Nat) (a b key : Word) : Word :=
  residueWord (if key = a then value a - weight b else if key = b then value b + weight a
    else value key)

theorem crossed_balanced {a b : Word} {rest : List Word} (distinct : (a :: b :: rest).Nodup) :
    Balanced (a :: b :: rest) weight value (crossed weight value a b) := by
  have apart : b ≠ a := by
    intro same
    simp [same] at distinct
  have others : Balanced rest weight value (crossed weight value a b) := by
    apply balanced_exact
    intro key member
    have first : key ≠ a := by
      rintro rfl
      simp [member] at distinct
    have second : key ≠ b := by
      rintro rfl
      simp [member] at distinct
    rw [crossed, residueWord_cast, if_neg first, if_neg second]
  rw [Balanced] at others
  rw [Balanced, List.map_cons, List.map_cons, List.sum_cons, List.sum_cons, others, crossed, crossed,
    residueWord_cast, residueWord_cast, if_pos rfl, if_neg apart, if_pos rfl]
  ring

/-- The equation binds the values of fewer than two keys, if they are residues. -/
theorem balanced_binds_iff (distinct : keys.Nodup) (unit : ∀ key ∈ keys, weight key ≠ 0) :
    (∀ claimed : Word → Word, (∀ key ∈ keys, ofBytes (claimed key).bytes < CURVE_ORDER) →
      Balanced keys weight value claimed → ∀ key ∈ keys, ofBytes (claimed key).bytes = value key) ↔
      keys.length < 2 ∧ ∀ key ∈ keys, value key < CURVE_ORDER := by
  constructor
  · intro binds
    constructor
    · by_contra many
      obtain ⟨a, b, rest, rfl⟩ := first_two (Nat.not_lt.mp many)
      have equal := binds (crossed weight value a b) (fun key _ => residueWord_small _)
        (crossed_balanced distinct) a List.mem_cons_self
      have cast := congrArg (Nat.cast : Nat → ZMod CURVE_ORDER) equal
      rw [crossed, residueWord_cast, if_pos rfl, sub_eq_self] at cast
      exact unit b (by simp) cast
    · intro key member
      have honest : Balanced keys weight value fun key => residueWord (value key) :=
        balanced_exact fun key _ => residueWord_cast _
      have equal := binds (fun key => residueWord (value key)) (fun key _ => residueWord_small _)
        honest key member
      rw [← equal]
      exact residueWord_small _
  · intro ⟨few, residues⟩ claimed bounded balanced key member
    have single : keys = [key] := by
      match keys, member, few with
      | [a], member, _ => rw [List.mem_singleton.mp member]
    have error := balanced
    rw [Balanced, single, List.map_singleton, List.sum_singleton] at error
    have zero := (mul_eq_zero.mp error).resolve_left (unit key member)
    exact (residues_equal (residues key member) (bounded key member) (sub_eq_zero.mp zero)).symm

end Equation

/- Claimed values as a list. -/

def claimFor (keys vs : List Word) (key : Word) : Word := vs.getD (keys.idxOf key) key

theorem claimFor_map {keys vs : List Word} (distinct : keys.Nodup) (size : vs.length = keys.length) :
    keys.map (claimFor keys vs) = vs := by
  apply List.ext_getElem (by simp [size])
  intro i inside inside'
  have within : i < keys.length := by simpa using inside
  rw [List.getElem_map, claimFor, distinct.idxOf_getElem i within]
  simp [List.getD_eq_getElem?_getD, inside']

theorem claimFor_at {keys vs : List Word} (distinct : keys.Nodup) {i : Nat} {key v : Word}
    (found : keys[i]? = some key) (claimed : vs[i]? = some v) : claimFor keys vs key = v := by
  obtain ⟨inside, rfl⟩ := List.getElem?_eq_some_iff.mp found
  rw [claimFor, distinct.idxOf_getElem i inside, List.getD_eq_getElem?_getD, claimed,
    Option.getD_some]

/- The verdict. -/
section Verdict
variable {backend : Backend Point G1 G2 FQ12} {setup : SetupObject G1 G2} {k bits : Nat}
  {w s : ZMod CURVE_ORDER} {logs : Logarithms backend.curve (ZMod CURVE_ORDER)}
  {tree : VerkleTree Point}
  {kids : Fin (kzgScheme backend setup).width → Trie (kzgScheme backend setup).width}
  [NeZero (kzgScheme backend setup).width]

/-- What an error in the value of a key is multiplied by. -/
noncomputable def weightOf (backend : Backend Point G1 G2 FQ12) (setup : SetupObject G1 G2)
    [NeZero (kzgScheme backend setup).width] (w s : ZMod CURVE_ORDER) (k : Nat) (rootBytes : Bytes)
    (kids : Fin (kzgScheme backend setup).width → Trie (kzgScheme backend setup).width)
    (key : Word) : ZMod CURVE_ORDER :=
  factorAt backend.sha256 rootBytes (pathOf setup.width key.bytes) (proofOf (kzgScheme backend setup)
      (.inner kids) (stemOf (kzgScheme backend setup).width key)).length *
    aeval s (cofactor w (2 ^ k) (suffixOf (kzgScheme backend setup).width key).val)

theorem verdict_balanced [DecidableEq FQ12] (ideal : SetupLogs logs setup k w s)
    (exact : logs.Lossless) (grown : Grown backend setup k w bits tree kids) {keys : List Word}
    {values : Word → Word} (found : ∀ key ∈ keys, stored backend setup kids key = some (values key)) :
    ∃ root rootBytes proof, nodePoint (kzgScheme backend setup) (.inner kids) = some root ∧
      backend.format.generateRootBytes root = .ok rootBytes ∧
      generateProof backend setup tree (keys.map Word.bytes) = .ok proof ∧
      ∀ claimed : Word → Word, (∀ key ∈ keys, ofBytes (claimed key).bytes ≤ CURVE_ORDER) →
        (VerkleVerification.verifyProof backend setup (keys.map fun key => (claimed key).bytes)
          (keys.map Word.bytes) root proof = .ok true ↔
            Balanced keys (weightOf backend setup w s k rootBytes kids)
              (fun key => ofBytes (values key).bytes) claimed) := by
  obtain ⟨root, rootBytes, proof, point, bytes, generated, verdict⟩ :=
    proof_verdict ideal exact grown found
  refine ⟨root, rootBytes, proof, point, bytes, generated, fun claimed bounded => ?_⟩
  rw [verdict claimed bounded, Balanced]
  have terms (key : Word) : algebraMap (ZMod CURVE_ORDER) (ZMod CURVE_ORDER)
      (defect backend setup rootBytes kids values claimed key) *
        aeval s (cofactor w (2 ^ k) (suffixOf (kzgScheme backend setup).width key).val) =
      weightOf backend setup w s k rootBytes kids key *
        ((ofBytes (values key).bytes : ZMod CURVE_ORDER) - ofBytes (claimed key).bytes) := by
    rw [Algebra.algebraMap_self, RingHom.id_apply, defect, weightOf]
    ring
  simp only [terms]

/-- A secret outside the domain and factors that are not zero leave no weight zero. -/
theorem weightOf_unit (grown : Grown backend setup k w bits tree kids) (apart : s ^ 2 ^ k ≠ 1)
    (sha_nonzero : ∀ rootBytes path level,
      deriveRFactorHash backend.sha256 rootBytes path level CURVE_ORDER ≠ .ok 0) (rootBytes : Bytes)
    {key : Word} (found : stored backend setup kids key ≠ none) :
    weightOf backend setup w s k rootBytes kids key ≠ 0 := by
  have width : (kzgScheme backend setup).width = 2 ^ k := grown.ready.lays.size
  have length := proofOf_length grown found
  have few := keyStations_length grown key
  apply mul_ne_zero
  · exact factor_unit backend.sha256 rootBytes (pathOf_ok grown.ready key.bytes).2 (by omega)
      (sha_nonzero _ _ _)
  · exact cofactor_unit grown.ready.lays.primitive apart
      (width ▸ (suffixOf (kzgScheme backend setup).width key).isLt)

end Verdict

theorem outside_domain {t : Tables} {k : Nat} {w : ZMod CURVE_ORDER} (lays : Lays t CURVE_ORDER k w)
    {s : ZMod CURVE_ORDER}
    (apart : ∀ i < t.width, s ≠ (t.rootOfUnity : ZMod CURVE_ORDER) ^ i) : s ^ 2 ^ k ≠ 1 := by
  intro one
  have positive : NeZero (2 ^ k) := ⟨Nat.ne_of_gt (Nat.two_pow_pos k)⟩
  obtain ⟨i, inside, power⟩ := lays.primitive.eq_pow_of_pow_eq_one one
  exact apart i (lays.size ▸ inside) (by rw [lays.root, power])

/-- Whatever values the proof of some keys is accepted for, the tree has them. -/
def BatchBinds [DecidableEq FQ12] (backend : Backend Point G1 G2 FQ12) (setup : SetupObject G1 G2)
    (tree : VerkleTree Point) (keys : List Word) : Prop :=
  ∀ root proof, rootCommitment tree = some root →
    generateProof backend setup tree (keys.map Word.bytes) = .ok proof →
    ∀ vs : List Word, vs.length = keys.length → (∀ v ∈ vs, ofBytes v.bytes < CURVE_ORDER) →
      VerkleVerification.verifyProof backend setup (vs.map Word.bytes) (keys.map Word.bytes) root
        proof = .ok true →
      ∀ (i : Nat) (key v : Word), keys[i]? = some key → vs[i]? = some v →
        VerkleTrees.get (kzgScheme backend setup) tree key.bytes = .ok (some (ofBytes v.bytes))

/-- The proof of fewer than two keys binds residues; that of two does not. -/
theorem grown_binds_iff [DecidableEq FQ12] {backend : Backend Point G1 G2 FQ12}
    {setup : SetupObject G1 G2} {k bits : Nat} {w s : ZMod CURVE_ORDER}
    {logs : Logarithms backend.curve (ZMod CURVE_ORDER)} {tree : VerkleTree Point}
    {kids : Fin (kzgScheme backend setup).width → Trie (kzgScheme backend setup).width}
    [NeZero (kzgScheme backend setup).width] (ideal : SetupLogs logs setup k w s)
    (exact : logs.Lossless) (grown : Grown backend setup k w bits tree kids) (apart : s ^ 2 ^ k ≠ 1)
    (sha_nonzero : ∀ rootBytes path level,
      deriveRFactorHash backend.sha256 rootBytes path level CURVE_ORDER ≠ .ok 0)
    {keys : List Word} (distinct : keys.Nodup) (values : Word → Word)
    (found : ∀ key ∈ keys, stored backend setup kids key = some (values key)) :
    BatchBinds backend setup tree keys ↔
      keys.length < 2 ∧ ∀ key ∈ keys, ofBytes (values key).bytes < CURVE_ORDER := by
  obtain ⟨p, rootBytes, proof, point, _, generated, verdict⟩ := verdict_balanced ideal exact grown found
  have root := (grown_rootCommitment grown).trans point
  have answer (key : Word) (member : key ∈ keys) : VerkleTrees.get (kzgScheme backend setup) tree
      key.bytes = .ok (some (ofBytes (values key).bytes)) := by
    rw [grown_get grown, found key member, Option.map_some]
  rw [← balanced_binds_iff distinct fun key member => weightOf_unit grown apart sha_nonzero
    rootBytes (show stored backend setup kids key ≠ none by simp [found key member])]
  constructor
  · intro property claimed bounded balanced key member
    obtain ⟨i, inside, rfl⟩ := List.getElem_of_mem member
    have accepted := (verdict claimed fun key member => Nat.le_of_lt (bounded key member)).mpr balanced
    have small : ∀ v ∈ keys.map claimed, ofBytes v.bytes < CURVE_ORDER := by
      intro v listed
      obtain ⟨key, inside, rfl⟩ := List.mem_map.mp listed
      exact bounded key inside
    have same := property p proof root generated (keys.map claimed) (List.length_map _) small
      (by rw [List.map_map]; exact accepted) i keys[i] (claimed keys[i])
      (List.getElem?_eq_getElem inside)
      (by rw [List.getElem?_map, List.getElem?_eq_getElem inside, Option.map_some])
    rw [answer _ member] at same
    simpa using same.symm
  · intro property root' proof' root_eq generated' vs size bounded accepted i key v at_key at_v
    rw [root] at root_eq
    rw [generated] at generated'
    cases root_eq
    cases generated'
    have member := List.mem_of_getElem? at_key
    have listed := claimFor_map distinct size
    have small (key : Word) (member : key ∈ keys) :
        ofBytes (claimFor keys vs key).bytes < CURVE_ORDER := by
      apply bounded
      have image := List.mem_map_of_mem (f := claimFor keys vs) member
      rwa [listed] at image
    rw [← listed, List.map_map] at accepted
    have balanced := (verdict (claimFor keys vs)
      fun key member => Nat.le_of_lt (small key member)).mp accepted
    have equal := property _ small balanced key member
    rw [claimFor_at distinct at_key at_v] at equal
    rw [answer key member, equal]

/-- An accepted batch proof binds its claimed values if and only if it is for
    fewer than two keys and what is stored are residues. -/
theorem batch_binds_iff {width : Nat} (supported : width = 16 ∨ width = 256) [DecidableEq FQ12]
    {curve : Curve Point2D G1 G2 FQ12} (logs : Logarithms curve (ZMod CURVE_ORDER))
    (exact : logs.Lossless) (logFloor : Nat → Nat) (sha256 : Bytes → Bytes) {zlib : Zlib}
    (lossless : zlib.Lossless) {secret : Nat} {setup : SetupObject G1 G2}
    (made : verkleKzgSetup curve secret width = .ok setup)
    (apart : ∀ i < setup.width,
      (secret : ZMod CURVE_ORDER) ≠ (setup.rootOfUnity : ZMod CURVE_ORDER) ^ i)
    (sha_nonzero : ∀ rootBytes path level,
      deriveRFactorHash sha256 rootBytes path level CURVE_ORDER ≠ .ok 0)
    (run : List (Word × Word))
    (valid : (insertRun (plainScheme curve logFloor sha256 zlib setup) run).2.disk.db.Consistent)
    (keys : List Word) (distinct : keys.Nodup)
    (inserted : ∀ key ∈ keys, lastInserted run key ≠ none) :
    BatchBinds (plainBackend curve logFloor sha256 zlib) setup
        (insertRun (plainScheme curve logFloor sha256 zlib setup) run).2 keys ↔
      keys.length < 2 ∧
        ∀ key ∈ keys, ∀ v, lastInserted run key = some v → ofBytes v.bytes < CURVE_ORDER := by
  obtain ⟨k, w, bits, standard, ready⟩ := setup_ready supported made
  have positive := width_neZero (plainBackend curve logFloor sha256 zlib) ready
  have faithful := plainFormat_faithful sha256 lossless
  by_cases bare : keys = []
  · subst bare
    simp [BatchBinds]
  · obtain ⟨kids, grown, _, answers, _⟩ := run_grown (plainBackend curve logFloor sha256 zlib)
      faithful ready (inserted_run bare inserted) valid
    let values (key : Word) := (lastInserted run key).getD key
    have known (key : Word) (member : key ∈ keys) : lastInserted run key = some (values key) := by
      obtain ⟨v, found⟩ := Option.ne_none_iff_exists'.mp (inserted key member)
      simp only [values, found, Option.getD_some]
    have binds := grown_binds_iff (standard_logs logs standard) exact grown
      (outside_domain standard.tables apart) sha_nonzero distinct values
      fun key member => by rw [answers, known key member]
    have residues : (∀ key ∈ keys, ∀ v, lastInserted run key = some v → ofBytes v.bytes < CURVE_ORDER) ↔
        ∀ key ∈ keys, ofBytes (values key).bytes < CURVE_ORDER := by
      constructor
      · intro all key member
        exact all key member _ (known key member)
      · intro all key member v found
        rw [known key member] at found
        cases found
        exact all key member
    rw [residues]
    exact binds

/-- Two keys that end in the same chunk can swap weighted errors, whatever the
    secret is. -/
theorem pair_forged {width : Nat} (supported : width = 16 ∨ width = 256) [DecidableEq FQ12]
    {curve : Curve Point2D G1 G2 FQ12} (logs : Logarithms curve (ZMod CURVE_ORDER))
    (exact : logs.Lossless) (logFloor : Nat → Nat) (sha256 : Bytes → Bytes) {zlib : Zlib}
    (lossless : zlib.Lossless) {secret : Nat} {setup : SetupObject G1 G2}
    (made : verkleKzgSetup curve secret width = .ok setup) {run : List (Word × Word)}
    (valid : (insertRun (plainScheme curve logFloor sha256 zlib setup) run).2.disk.db.Consistent)
    {a b va vb ca cb : Word} (apart : a ≠ b) (inserted : lastInserted run a = some va)
    (inserted' : lastInserted run b = some vb)
    (chunk : (keyChunks width a.bytes).getLast? = (keyChunks width b.bytes).getLast?)
    {root : Point2D} {rootBytes : Bytes}
    (known : rootCommitment (insertRun (plainScheme curve logFloor sha256 zlib setup) run).2 =
      some root) (bytes : generateRootBytes root = .ok rootBytes) {la lb : Nat}
    (deep : (getProofTree (plainScheme curve logFloor sha256 zlib setup)
      (insertRun (plainScheme curve logFloor sha256 zlib setup) run).2 a.bytes).toOption.map
        List.length = some la)
    (deep' : (getProofTree (plainScheme curve logFloor sha256 zlib setup)
      (insertRun (plainScheme curve logFloor sha256 zlib setup) run).2 b.bytes).toOption.map
        List.length = some lb)
    (small : ofBytes ca.bytes < CURVE_ORDER) (small' : ofBytes cb.bytes < CURVE_ORDER)
    (cancel : factorAt sha256 rootBytes (pathOf setup.width a.bytes) la *
        ((ofBytes va.bytes : ZMod CURVE_ORDER) - ofBytes ca.bytes) +
      factorAt sha256 rootBytes (pathOf setup.width b.bytes) lb *
        ((ofBytes vb.bytes : ZMod CURVE_ORDER) - ofBytes cb.bytes) = 0) :
    ∃ proof,
      generateProof (plainBackend curve logFloor sha256 zlib) setup
        (insertRun (plainScheme curve logFloor sha256 zlib setup) run).2 [a.bytes, b.bytes] =
          .ok proof ∧
      VerkleVerification.verifyProof (plainBackend curve logFloor sha256 zlib) setup
        [ca.bytes, cb.bytes] [a.bytes, b.bytes] root proof = .ok true ∧
      VerkleTrees.get (plainScheme curve logFloor sha256 zlib setup)
        (insertRun (plainScheme curve logFloor sha256 zlib setup) run).2 a.bytes =
          .ok (some (ofBytes va.bytes)) := by
  obtain ⟨k, w, bits, standard, ready⟩ := setup_ready supported made
  have positive := width_neZero (plainBackend curve logFloor sha256 zlib) ready
  have faithful := plainFormat_faithful sha256 lossless
  have run_some : run ≠ [] := by
    rintro rfl
    simp [lastInserted] at inserted
  obtain ⟨kids, grown, _, answers, _⟩ := run_grown
    (plainBackend curve logFloor sha256 zlib) faithful ready run_some valid
  let pick (x y key : Word) : Word := if key = a then x else y
  have first (x y : Word) : pick x y a = x := if_pos rfl
  have second (x y : Word) : pick x y b = y := if_neg (Ne.symm apart)
  have found : ∀ key ∈ [a, b], stored (plainBackend curve logFloor sha256 zlib) setup kids key =
      some (pick va vb key) := by
    intro key member
    rw [answers]
    simp only [List.mem_cons, List.not_mem_nil, or_false] at member
    rcases member with rfl | rfl
    · rw [first, inserted]
    · rw [second, inserted']
  obtain ⟨root', rootBytes', proof, point, bytes', generated, verdict⟩ := verdict_balanced
    (standard_logs logs standard) exact grown found
  have same := (grown_rootCommitment grown).trans point
  have roots := Option.some.inj (known.symm.trans same)
  subst roots
  have texts := Except.ok.inj (bytes.symm.trans bytes')
  subst texts
  have length (key : Word) {l : Nat} (deep : (getProofTree (plainScheme curve logFloor sha256 zlib setup)
      (insertRun (plainScheme curve logFloor sha256 zlib setup) run).2 key.bytes).toOption.map
        List.length = some l) : (proofOf (kzgScheme (plainBackend curve logFloor sha256 zlib) setup)
          (.inner kids) (stemOf (kzgScheme (plainBackend curve logFloor sha256 zlib) setup).width
            key)).length = l := by
    have walked := getProofTree_ok grown key
    rw [plainScheme, walked] at deep
    exact Option.some.inj deep
  have suffixes : suffixOf (kzgScheme (plainBackend curve logFloor sha256 zlib) setup).width a =
      suffixOf (kzgScheme (plainBackend curve logFloor sha256 zlib) setup).width b := by
    obtain ⟨chunks, cut, last, _⟩ :=
      chunks_ok (plainBackend curve logFloor sha256 zlib) ready a
    obtain ⟨chunks', cut', last', _⟩ :=
      chunks_ok (plainBackend curve logFloor sha256 zlib) ready b
    rw [getKeyChunks_ok ready.aligned.toCuts] at cut cut'
    cases cut
    cases cut'
    rw [made_width made, chunk] at last
    rw [made_width made, last] at last'
    exact Fin.ext (Option.some.inj last')
  have spread (r r' z x y : ZMod CURVE_ORDER) (none : r * x + r' * y = 0) :
      r * z * x + r' * z * y = 0 := by
    linear_combination z * none
  have accepted := (verdict (pick ca cb) (by
    intro key member
    simp only [List.mem_cons, List.not_mem_nil, or_false] at member
    rcases member with rfl | rfl
    · rw [first]
      exact Nat.le_of_lt small
    · rw [second]
      exact Nat.le_of_lt small')).mpr (by
    rw [Balanced, List.map_cons, List.map_singleton, List.sum_cons, List.sum_singleton, weightOf,
      weightOf, length a deep, length b deep', ← suffixes, first, first, second, second]
    exact spread _ _ _ _ _ cancel)
  refine ⟨proof, generated, ?_, ?_⟩
  · simpa only [List.map_cons, List.map_nil, first, second] using accepted
  · have answer := grown_get grown a
    rw [answers, inserted] at answer
    exact answer

/- The two keys of the sample end in the same chunk. -/
section Sample

theorem forkSha256_nonzero (rootBytes : Bytes) (path : List Nat) (level : Nat) :
    deriveRFactorHash forkSha256 rootBytes path level CURVE_ORDER ≠ .ok 0 := by
  have digests : ∀ e ∈ forkDigests, ofBytes e.2 % CURVE_ORDER ≠ 0 := by decide
  have residue (text : Bytes) : ofBytes (forkSha256 text) % CURVE_ORDER ≠ 0 := by
    rw [forkSha256]
    cases found : forkDigests.lookup text with
    | none =>
      rw [Option.getD_none]
      decide
    | some digest =>
      obtain ⟨l₁, l₂, split, _⟩ := List.lookup_eq_some_iff.mp found
      exact digests (text, digest) (by rw [split]; simp)
  intro zero
  obtain ⟨bytes, _, zero⟩ := ok_of_bind zero
  obtain ⟨levelBytes, _, zero⟩ := ok_of_bind zero
  exact residue _ (Except.ok.inj zero)

theorem forkSetup_apart : ∀ i < forkSetup.width,
    ((5 : Nat) : ZMod CURVE_ORDER) ≠ (forkSetup.rootOfUnity : ZMod CURVE_ORDER) ^ i := by
  obtain ⟨k, w, bits, standard, _⟩ := setup_ready (Or.inl rfl) forkSetup_made
  have size := made_width forkSetup_made
  have turn : powMod 5 16 CURVE_ORDER < CURVE_ORDER ∧ powMod 5 16 CURVE_ORDER ≠ 1 := by decide
  intro i _ same
  have whole : ((5 : Nat) : ZMod CURVE_ORDER) ^ 16 = 1 := by
    rw [same, standard.tables.root, ← pow_mul, mul_comm, pow_mul, ← size, standard.tables.size,
      standard.tables.primitive.pow_eq_one, one_pow]
  rw [← powMod_cast, ← Nat.cast_one] at whole
  exact turn.2 (residues_equal turn.1 (by decide) whole)

theorem batch_binds_sample :
    BatchBinds (plainBackend forkCurve sampleLogFloor forkSha256 forkZlib) forkSetup
      (insertRun (plainScheme forkCurve sampleLogFloor forkSha256 forkZlib forkSetup) forkRun).2
        [forkKey] ∧
    ¬ BatchBinds (plainBackend forkCurve sampleLogFloor forkSha256 forkZlib) forkSetup
      (insertRun (plainScheme forkCurve sampleLogFloor forkSha256 forkZlib forkSetup) forkRun).2
        [sampleKey, forkKey] := by
  have present : ∀ key ∈ [sampleKey, forkKey], lastInserted forkRun key ≠ none := by decide
  have residues : ∀ key ∈ [forkKey], ∀ v, lastInserted forkRun key = some v →
      ofBytes v.bytes < CURVE_ORDER := by
    intro key _ v found
    have small : ∀ e ∈ forkRun, ofBytes e.2.bytes < CURVE_ORDER := by decide
    exact small _ (lastInserted_member found)
  constructor
  · exact (batch_binds_iff (Or.inl rfl) forkLogs forkLogs_lossless sampleLogFloor forkSha256
      forkZlib_lossless forkSetup_made forkSetup_apart forkSha256_nonzero forkRun forkRun_consistent
      [forkKey] (List.nodup_singleton _)
      fun key member => present key (List.mem_cons_of_mem _ member)).mpr ⟨by decide, residues⟩
  · intro binds
    have few := ((batch_binds_iff (Or.inl rfl) forkLogs forkLogs_lossless sampleLogFloor forkSha256
      forkZlib_lossless forkSetup_made forkSetup_apart forkSha256_nonzero forkRun forkRun_consistent
      [sampleKey, forkKey] (by decide) present).mp binds).1
    exact absurd few (by decide)

def firstFactor : Nat := 0x4821136139810978e303ebaeb8b6aad4a347a0458c91bdae09dcac18385eaa39

def secondFactor : Nat := 0x61d665ec11d2eb5e936bc64a8073b91e33c54e7a58b593dc182f36fcd2911e47

/-- Each value is off by the factor of the other key. -/
def forgedFirst : Word := ⟨toBytes 32 ((7 + secondFactor) % CURVE_ORDER), toBytes_length _ _⟩

def forgedSecond : Word :=
  ⟨toBytes 32 ((7 + CURVE_ORDER - firstFactor % CURVE_ORDER) % CURVE_ORDER), toBytes_length _ _⟩

theorem forkFactors (rootBytes : Bytes) (bytes : generateRootBytes forkPoint = .ok rootBytes) :
    factorAt forkSha256 rootBytes (pathOf forkSetup.width sampleKey.bytes) 2 = firstFactor ∧
      factorAt forkSha256 rootBytes (pathOf forkSetup.width forkKey.bytes) 2 = secondFactor := by
  have known : (generateRootBytes forkPoint).toOption.getD [] = rootBytes := by rw [bytes]; rfl
  have size := made_width forkSetup_made
  have hashes : deriveRFactorHash forkSha256 ((generateRootBytes forkPoint).toOption.getD [])
        (pathOf 16 sampleKey.bytes) 2 CURVE_ORDER = .ok (firstFactor % CURVE_ORDER) ∧
      deriveRFactorHash forkSha256 ((generateRootBytes forkPoint).toOption.getD [])
        (pathOf 16 forkKey.bytes) 2 CURVE_ORDER = .ok (secondFactor % CURVE_ORDER) := by
    decide +kernel
  rw [known] at hashes
  rw [size, factorAt, factorAt, hashes.1, hashes.2]
  exact ⟨ZMod.natCast_mod _ _, ZMod.natCast_mod _ _⟩

theorem forged_cast : (ofBytes forgedFirst.bytes : ZMod CURVE_ORDER) = 7 + secondFactor ∧
    (ofBytes forgedSecond.bytes : ZMod CURVE_ORDER) = 7 - firstFactor := by
  constructor
  · have value : ofBytes forgedFirst.bytes = (7 + secondFactor) % CURVE_ORDER := by decide
    rw [value, ZMod.natCast_mod, Nat.cast_add]
    rfl
  · have value : ofBytes forgedSecond.bytes + firstFactor % CURVE_ORDER = 7 + CURVE_ORDER := by
      decide
    have cast := congrArg (Nat.cast : Nat → ZMod CURVE_ORDER) value
    rw [Nat.cast_add, Nat.cast_add, ZMod.natCast_mod, ZMod.natCast_self, add_zero] at cast
    exact eq_sub_of_add_eq cast

/-- The proof of two values, 7 and 7, is accepted for two others. -/
theorem batch_not_bound : ∃ proof,
    generateProof (plainBackend forkCurve sampleLogFloor forkSha256 forkZlib) forkSetup
      (insertRun (plainScheme forkCurve sampleLogFloor forkSha256 forkZlib forkSetup)
        ([(sampleKey, sampleValue)] ++ [(forkKey, sampleValue)])).2
      [sampleKey.bytes, forkKey.bytes] = .ok proof ∧
    VerkleVerification.verifyProof (plainBackend forkCurve sampleLogFloor forkSha256 forkZlib)
      forkSetup [forgedFirst.bytes, forgedSecond.bytes] [sampleKey.bytes, forkKey.bytes] forkPoint
      proof = .ok true ∧
    VerkleTrees.get (plainScheme forkCurve sampleLogFloor forkSha256 forkZlib forkSetup)
      (insertRun (plainScheme forkCurve sampleLogFloor forkSha256 forkZlib forkSetup)
        ([(sampleKey, sampleValue)] ++ [(forkKey, sampleValue)])).2 sampleKey.bytes =
          .ok (some 7) ∧
    rootCommitment (insertRun (plainScheme forkCurve sampleLogFloor forkSha256 forkZlib forkSetup)
      ([(sampleKey, sampleValue)] ++ [(forkKey, sampleValue)])).2 = some forkPoint ∧
    ofBytes forgedFirst.bytes ≠ 7 ∧ ofBytes forgedFirst.bytes < CURVE_ORDER ∧
    ofBytes forgedSecond.bytes < CURVE_ORDER := by
  obtain ⟨valid, root, deep, deep'⟩ := forkRun_facts
  obtain ⟨rootBytes, bytes⟩ := generateRootBytes_ok forkPoint
  obtain ⟨first, second⟩ := forkFactors rootBytes bytes
  have inserted : lastInserted ([(sampleKey, sampleValue)] ++ [(forkKey, sampleValue)]) sampleKey =
        some sampleValue ∧
      lastInserted ([(sampleKey, sampleValue)] ++ [(forkKey, sampleValue)]) forkKey =
        some sampleValue := by decide
  have chunks : (keyChunks 16 sampleKey.bytes).getLast? = (keyChunks 16 forkKey.bytes).getLast? := by
    decide
  have small : ofBytes forgedFirst.bytes < CURVE_ORDER ∧ ofBytes forgedSecond.bytes < CURVE_ORDER ∧
      ofBytes forgedFirst.bytes ≠ 7 ∧ ofBytes sampleValue.bytes = 7 := by decide
  obtain ⟨proof, generated, accepted, answer⟩ := pair_forged (Or.inl rfl) forkLogs forkLogs_lossless
    sampleLogFloor forkSha256 forkZlib_lossless forkSetup_made valid (by decide) inserted.1
    inserted.2 chunks root bytes deep deep' small.1 small.2.1 (by
      rw [first, second, forged_cast.1, forged_cast.2, small.2.2.2]
      push_cast
      ring)
  rw [small.2.2.2] at answer
  exact ⟨proof, generated, accepted, answer, root, small.2.2.1, small.1, small.2.1⟩

end Sample

end VerkleBinding
