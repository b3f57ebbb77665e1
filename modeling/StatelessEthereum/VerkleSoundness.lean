import StatelessEthereum.PolynomialCurve
import StatelessEthereum.VerkleCompleteness

/- What the plain verifier can be made to accept for a single key, with
   commitments and a witness that are polynomials below the width. -/
namespace VerkleSoundness
open Polynomial PythonError BigEndian EvaluationDomain Fft KzgSetup KzgScheme
open IdealCurve Openings VerkleOpenings VerkleChecks VerkleCompleteness PolynomialCurve
open VerkleProof (arrayValues extensionValues)
open VerkleTrees hiding insert get getKeyChunks
open StemTree hiding insert lookup
open VerkleStorage VerkleKey VerkleRuns
variable {Point G1 G2 FQ12 : Type}

section Single
variable {width k bits : Nat} {w : ZMod CURVE_ORDER}
  {backend : Backend (LowPolynomial width) (ZMod CURVE_ORDER)[X] (ZMod CURVE_ORDER)[X]
    (ZMod CURVE_ORDER)[X]}
  {setup : SetupObject (ZMod CURVE_ORDER)[X] (ZMod CURVE_ORDER)[X]}
  {logs : Logarithms backend.curve (ZMod CURVE_ORDER)[X]}
  [NeZero (kzgScheme backend setup).width]

/-- What the levels of a proof are off their claims cancels at every point of
    the domain. -/
def ErrorsCancel (backend : Backend (LowPolynomial width) (ZMod CURVE_ORDER)[X]
    (ZMod CURVE_ORDER)[X] (ZMod CURVE_ORDER)[X]) (logs : Logarithms backend.curve (ZMod CURVE_ORDER)[X])
    (setup : SetupObject (ZMod CURVE_ORDER)[X] (ZMod CURVE_ORDER)[X])
    [NeZero (kzgScheme backend setup).width] (w : ZMod CURVE_ORDER) (rootBytes : Bytes)
    (root : LowPolynomial width) (commitments : List (LowPolynomial width)) (key value : Word) : Prop :=
  ∃ claims, keyClaims backend setup root commitments key value.bytes = some claims ∧
    ∀ i < setup.width, errorAt w (claimedOpenings logs setup rootBytes key claims) i = 0

theorem verifyProof_inv [DecidableEq FQ12] {backend : Backend Point G1 G2 FQ12}
    {setup : SetupObject G1 G2} [NeZero (kzgScheme backend setup).width] (ready : Ready setup k w bits)
    {root witness : Point} {commitments : List Point} {key value : Word}
    (accepted : VerkleVerification.verifyProof backend setup [value.bytes] [key.bytes] root
      ([commitments], witness) = .ok true) :
    ofBytes value.bytes ≤ CURVE_ORDER ∧
      ∃ claims, keyClaims backend setup root commitments key value.bytes = some claims := by
  obtain ⟨paths, read, run⟩ := ok_of_bind accepted
  obtain ⟨rootBytes, _, run⟩ := ok_of_bind run
  obtain ⟨r, _, run⟩ := ok_of_bind run
  obtain ⟨path, rest, _, later, rfl⟩ := mapM_cons_inv read
  simp only [List.map_cons, List.map_nil, List.zip_cons_cons] at run
  obtain ⟨out, checked, _⟩ := ok_of_bind run
  rw [List.foldlM_cons] at checked
  obtain ⟨level, checked, _⟩ := ok_of_bind checked
  obtain ⟨chunks, cut, last, front⟩ := verifier_chunks backend ready key
  simp only [VerkleVerification.checkKey, cut, last, front, bind, Except.bind] at checked
  obtain ⟨bounded, read⟩ := checkLevels_inv checked
  exact ⟨ready.lays.order ▸ bounded, read⟩

variable (ideal : SetupLogs logs setup k w X) (ready : Ready setup k w bits)
  (residue : ∀ p, (kzgScheme backend setup).hashPointToField p < CURVE_ORDER)
  (same : ∀ p, logs.log (backend.curve.lift p) = p.poly) (size : width = 2 ^ k)
include ready residue same

/-- Where all levels are opened at different points, every one is what the
    verifier takes it for. -/
theorem levels_apart {root : LowPolynomial width} {rootBytes : Bytes}
    {commitments : List (LowPolynomial width)} {key value : Word}
    {claims : List (Claim (LowPolynomial width))}
    (read : keyClaims backend setup root commitments key value.bytes = some claims)
    (bounded : ofBytes value.bytes ≤ CURVE_ORDER) (apart : (claims.map Claim.index).Nodup)
    (unit : ∀ level < claims.length, factorAt backend.sha256 rootBytes (pathOf setup.width key.bytes) level ≠ 0) :
    ErrorsCancel backend logs setup w rootBytes root commitments key value ↔
      ∀ claim ∈ claims, (claim.point.poly.eval (w ^ claim.index) = (claim.leaf : ZMod CURVE_ORDER)) := by
  let factor := factorAt backend.sha256 rootBytes (pathOf setup.width key.bytes)
  have width : setup.width = 2 ^ k := ready.lays.size
  have limits := keyClaims_bounded ready residue bounded read
  have indices (level : Nat) (claims : List (Claim (LowPolynomial _))) :
      (claimedFrom logs factor level claims).map Opening.index = claims.map Claim.index := by
    induction claims generalizing level with
    | nil => rfl
    | cons claim claims ih => rw [claimedFrom, List.map_cons, List.map_cons, ih]; rfl
  have values (level : Nat) (claims : List (Claim (LowPolynomial _))) :
      (∀ o ∈ claimedFrom logs factor level claims, o.value.eval (w ^ o.index) = o.leaf) ↔
        ∀ claim ∈ claims, claim.point.poly.eval (w ^ claim.index) =
          (claim.leaf : ZMod CURVE_ORDER) := by
    induction claims generalizing level with
    | nil => simp [claimedFrom]
    | cons claim claims ih =>
      rw [claimedFrom, List.forall_mem_cons, List.forall_mem_cons, ih, ← same]
      rfl
  have opened := errors_apart (w := w) (n := setup.width)
    (claimedOpenings logs setup rootBytes key claims) (by rwa [claimedOpenings, indices])
    (by
      intro o member
      obtain ⟨claim, listed, _, _, rfl⟩ := claimedFrom_member member
      exact width ▸ (limits claim listed).1)
    (by
      intro o member
      obtain ⟨claim, _, level, short, rfl⟩ := claimedFrom_member member
      rw [Nat.zero_add]
      exact unit level short)
  rw [← values 0 claims]
  constructor
  · rintro ⟨claims', read', cancel⟩
    cases read.symm.trans read'
    exact opened.mp cancel
  · intro exact
    exact ⟨claims, read, opened.mpr exact⟩

include ideal size

variable (backend) in
/-- A witness that is accepted exists if and only if the errors cancel. -/
theorem accepted_iff [DecidableEq (ZMod CURVE_ORDER)[X]] (root : LowPolynomial width)
    {rootBytes : Bytes} (bytes : backend.format.generateRootBytes root = .ok rootBytes)
    (commitments : List (LowPolynomial width)) (key value : Word) :
    (∃ witness, VerkleVerification.verifyProof backend setup [value.bytes] [key.bytes] root
      ([commitments], witness) = .ok true) ↔
      ofBytes value.bytes ≤ CURVE_ORDER ∧
        ErrorsCancel backend logs setup w rootBytes root commitments key value := by
  have root_of_unity := ready.lays.primitive
  have verdict {claims : List (Claim (LowPolynomial width))} (bounded : ofBytes value.bytes ≤ CURVE_ORDER)
      (read : keyClaims backend setup root commitments key value.bytes = some claims)
      (witness : LowPolynomial width) :
      VerkleVerification.verifyProof backend setup [value.bytes] [key.bytes] root
        ([commitments], witness) = .ok true ↔
          total w (2 ^ k) X (claimedOpenings logs setup rootBytes key claims) =
            (X ^ 2 ^ k - 1) * witness.poly := by
    have equation := verifyProof_iff ideal ready residue bytes
      [(commitments, key, value.bytes)] (fun _ => claims) (by simpa using read)
      (by simpa using bounded) witness
    rw [same] at equation
    simpa using equation
  have inside {claims : List (Claim (LowPolynomial width))} (bounded : ofBytes value.bytes ≤ CURVE_ORDER)
      (read : keyClaims backend setup root commitments key value.bytes = some claims) :
      ∀ o ∈ claimedOpenings logs setup rootBytes key claims,
        o.index < 2 ^ k ∧ o.value.degree < (2 ^ k : Nat) := by
    intro o member
    obtain ⟨claim, listed, _, _, rfl⟩ := claimedFrom_member member
    refine ⟨(keyClaims_bounded ready residue bounded read claim listed).1, ?_⟩
    have low : claim.point.poly.degree < ((2 ^ k : Nat) : WithBot Nat) :=
      lt_of_lt_of_eq claim.point.low (congrArg Nat.cast size)
    rw [← same] at low
    exact low
  constructor
  · rintro ⟨witness, accepted⟩
    obtain ⟨bounded, claims, read⟩ := verifyProof_inv ready accepted
    have low : witness.poly.degree < ((2 ^ k : Nat) : WithBot Nat) :=
      lt_of_lt_of_eq witness.low (congrArg Nat.cast size)
    have cancel := (witness_iff root_of_unity (Nat.two_pow_pos k) (inside bounded read)).mp
      ⟨witness.poly, low, (verdict bounded read witness).mp accepted⟩
    exact ⟨bounded, claims, read, fun i within => cancel i (ready.lays.size ▸ within)⟩
  · rintro ⟨bounded, claims, read, cancel⟩
    obtain ⟨q, low, divides⟩ := (witness_iff root_of_unity (Nat.two_pow_pos k)
      (inside bounded read)).mpr fun i within => cancel i (by rw [ready.lays.size]; exact within)
    have low : q.degree < (width : WithBot Nat) := lt_of_lt_of_eq low (congrArg Nat.cast size.symm)
    exact ⟨⟨q, low⟩, (verdict bounded read ⟨q, low⟩).mpr divides⟩

end Single

/- A tree of one key. Its root is taken for the suffix of another key, which
   has no node below the root. -/
section Stray

/-- What the polynomials of the tree below are at the first point of the domain
    and at that of chunk 18 keeps them apart. -/
noncomputable def strayHash (p : LowPolynomial 256) : Nat :=
  (p.poly.eval 1).val + 2 * (p.poly.eval (rootOf 256 ^ 18)).val + 1

noncomputable def strayBackend : Backend (LowPolynomial 256) (ZMod CURVE_ORDER)[X]
    (ZMod CURVE_ORDER)[X] (ZMod CURVE_ORDER)[X] :=
  polynomialBackend 256 sampleLogFloor (fun _ => List.replicate 32 1) strayHash
    (losslessCodec (LowPolynomial 256))

/-- Another stem, and the suffix of the key in the tree. -/
def strayKey : Word := ⟨List.replicate 31 0 ++ [0x12], rfl⟩

def strayValue : Word := ⟨toBytes 32 2, toBytes_length _ _⟩

section Tree
variable {setup : SetupObject (ZMod CURVE_ORDER)[X] (ZMod CURVE_ORDER)[X]} {k bits : Nat}
  (ready : Ready setup k (rootOf 256) bits) (size : 256 = 2 ^ k)
  (ideal : SetupLogs (polynomialLogs 256) setup k (rootOf 256) X)

include ready in
theorem stray_lawful : Lawful (kzgScheme strayBackend setup) :=
  ready_lawful (losslessCodec_faithful (LowPolynomial 256) strayHash) ready

include size ideal in
theorem stray_commits :
    Commits strayBackend (polynomialLogs 256) setup k (rootOf 256) X := by
  intro values p few run
  rw [aeval_X_left_apply]
  exact committed_poly size ideal sampleLogFloor few run

include ready size

theorem stray_split [NeZero (kzgScheme strayBackend setup).width] {key : Word} {stem : List Nat}
    {suffix : Nat} (split : splitKey 256 key.bytes = .ok (stem, suffix)) :
    (stemOf (kzgScheme strayBackend setup).width key).map Fin.val = stem ∧
      (suffixOf (kzgScheme strayBackend setup).width key).val = suffix := by
  have aligned : Aligned (kzgScheme strayBackend setup).width bits := ready.aligned
  have width : 256 = (kzgScheme strayBackend setup).width := size.trans ready.lays.size.symm
  have known := splitKey_ok aligned.toCuts key
  have same : splitKey (kzgScheme strayBackend setup).width key.bytes = .ok (stem, suffix) :=
    width ▸ split
  rw [same, Except.ok.injEq, Prod.mk.injEq] at known
  exact ⟨known.1.symm, known.2.symm⟩

include ideal

theorem extension_hash {stem : List (Fin (kzgScheme strayBackend setup).width)} {child : Option Word}
    {p : LowPolynomial 256}
    (point : extensionPoint (kzgScheme strayBackend setup) stem child = some p) :
    strayHash p = 2 := by
  let values : Nat → ZMod CURVE_ORDER :=
    residues (extensionValues setup.width (stemBytes stem) (child.map Word.bytes))
  have poly : p.poly = interp (rootOf 256) (2 ^ k) values := by
    have log := extension_log (stray_commits size ideal) ready point
    rwa [aeval_X_left_apply] at log
  have first := interp_eval ready.lays.primitive (show 0 < 2 ^ k by omega) values
  have other := interp_eval ready.lays.primitive (show 18 < 2 ^ k by omega) values
  have front : values 0 = 1 := Int.cast_one
  have rest : values 18 = 0 := by
    rw [show values = residues _ from residues_pad _ _]
    exact Int.cast_zero
  rw [pow_zero, front] at first
  rw [rest] at other
  rw [strayHash, poly, first, other, ZMod.val_one, ZMod.val_zero]

/-- An array commitment has the children's numbers on the domain. -/
theorem array_opening {f : Fin (kzgScheme strayBackend setup).width → Option Word}
    {p : LowPolynomial 256} (point : arrayPoint (kzgScheme strayBackend setup) f = some p)
    (x : Fin (kzgScheme strayBackend setup).width) :
    p.poly.eval (rootOf 256 ^ x.val) = (childValue ((f x).map Word.bytes) : ZMod CURVE_ORDER) := by
  have log := array_log (stray_commits size ideal) ready point
  rw [aeval_X_left_apply] at log
  have poly : p.poly = interp (rootOf 256) (2 ^ k) (residues (arrayValues (childList f))) := log
  have inside : x.val < 2 ^ k := ready.lays.size ▸ x.isLt
  have leaf := congrArg (Int.cast : Int → ZMod CURVE_ORDER)
    (@leaf_array _ (kzgScheme strayBackend setup) .internal f x)
  rw [poly, interp_eval ready.lays.primitive inside]
  exact leaf.trans (Int.cast_natCast _)

theorem array_hash {f : Fin (kzgScheme strayBackend setup).width → Option Word} {p : LowPolynomial 256}
    (point : arrayPoint (kzgScheme strayBackend setup) f = some p)
    {x first : Fin (kzgScheme strayBackend setup).width} (here : x.val = 18) (front : first.val = 0)
    {n : Nat} (small : n < CURVE_ORDER) (held : f x = some ⟨toBytes 32 n, toBytes_length _ _⟩)
    (free : f first = none) : strayHash p = 2 * n + 1 := by
  have number : ofBytes (toBytes 32 n) = n :=
    ofBytes_toBytes_of_lt (Nat.lt_trans small (by decide))
  have one := array_opening ready size ideal point first
  have other := array_opening ready size ideal point x
  rw [front, free, Option.map_none, childValue, Option.elim_none, pow_zero, Nat.cast_zero] at one
  rw [here, held, Option.map_some, childValue, Option.elim_some, number] at other
  rw [strayHash, one, other, ZMod.val_zero, ZMod.val_natCast_of_lt small, Nat.zero_add]

omit ideal in
/-- The tree of the one key: at chunk 18 of the root its extension. -/
theorem stray_tree [NeZero (kzgScheme strayBackend setup).width]
    {kids : Fin (kzgScheme strayBackend setup).width → Trie (kzgScheme strayBackend setup).width}
    (tree : insertKey (.inner bare) sampleKey sampleValue = .inner kids) :
    ∃ i below slots, i.val = 18 ∧ kids = Function.update bare i (.group below slots) ∧
      slots = StemTree.single i sampleValue := by
  have split : splitKey 256 sampleKey.bytes = .ok (List.replicate 31 18, 18) := by decide
  obtain ⟨stem, suffix⟩ := stray_split ready size split
  cases shape : stemOf (kzgScheme strayBackend setup).width sampleKey with
  | nil => simp [shape] at stem
  | cons i below =>
    rw [shape, List.map_cons] at stem
    have here : i.val = 18 := (List.cons.inj stem).1
    have same : suffixOf (kzgScheme strayBackend setup).width sampleKey = i :=
      Fin.ext (suffix.trans here.symm)
    rw [insertKey, shape, same] at tree
    exact ⟨i, below, _, here, (Tree.inner.inj tree).symm, rfl⟩

/-- The nodes of the tree have different hashes, and that of the extension is
    what the root holds at chunk 18. -/
theorem stray_nodes [NeZero (kzgScheme strayBackend setup).width]
    {kids : Fin (kzgScheme strayBackend setup).width → Trie (kzgScheme strayBackend setup).width}
    (tree : insertKey (.inner bare) sampleKey sampleValue = .inner kids) :
    ∃ (i first : Fin (kzgScheme strayBackend setup).width) (suffix extension root : LowPolynomial 256),
      i.val = 18 ∧ first.val = 0 ∧ kids first = .empty ∧
      arrayPoint (kzgScheme strayBackend setup) (StemTree.single i sampleValue) = some suffix ∧
      refs (kzgScheme strayBackend setup) kids i = some strayValue ∧
      nodePoint (kzgScheme strayBackend setup) (kids i) = some extension ∧
      nodePoint (kzgScheme strayBackend setup) (.inner kids) = some root ∧
      strayHash suffix = 15 ∧ strayHash extension = 2 ∧ strayHash root = 5 := by
  have lawful := stray_lawful ready
  have width : (kzgScheme strayBackend setup).width = 256 := ready.lays.size.trans size.symm
  have order : setup.modulus = CURVE_ORDER := ready.lays.order
  obtain ⟨i, below, slots, here, shape, single⟩ := stray_tree ready size tree
  let first : Fin (kzgScheme strayBackend setup).width := ⟨0, by omega⟩
  have apart : first ≠ i := by
    intro same
    rw [← same] at here
    exact Nat.noConfusion here
  have group : kids i = .group below slots := by rw [shape, Function.update_self]
  have free : kids first = .empty := by rw [shape, Function.update_of_ne apart]; rfl
  obtain ⟨suffix, suffixPoint, _⟩ := commit_childList lawful slots
  obtain ⟨extension, point, _⟩ := commit_extension lawful (narrow_stem (by omega) below)
    (suffixRef _ slots)
  obtain ⟨root, rootPoint, _⟩ := commit_childList lawful (refs _ kids)
  have hashed := extension_hash ready size ideal point
  have named : pointRef (kzgScheme strayBackend setup) extension = strayValue := by
    have number : (kzgScheme strayBackend setup).hashPointToField extension = 2 := by
      have residue : (kzgScheme strayBackend setup).hashPointToField extension =
          strayHash extension % setup.modulus := rfl
      rw [residue, hashed, order]
      decide
    simp only [pointRef, number, strayValue]
  have held : refs (kzgScheme strayBackend setup) kids i = some strayValue := by
    rw [refs, group, refOf, nodePoint, point, Option.map_some, named]
  rw [single] at suffixPoint
  refine ⟨i, first, suffix, extension, root, here, rfl, free, suffixPoint, held,
    by rw [group, nodePoint, point], rootPoint, ?_, hashed, ?_⟩
  · exact array_hash ready size ideal suffixPoint here rfl (n := 7) (by decide)
      (by rw [single_apply, if_pos rfl]; rfl) (by rw [single_apply, if_neg apart])
  · exact array_hash ready size ideal rootPoint here rfl (n := 2) (by decide) held
      (by rw [refs, free, refOf_empty])

end Tree

/-- A key whose first chunk has no child is answered without loading a node. -/
theorem get_missing {scheme : Scheme Point} {bits : Nat} [NeZero scheme.width]
    (aligned : Aligned scheme.width bits) {t : VerkleTree Point}
    {kids : Fin scheme.width → Trie scheme.width} (shown : Represents scheme t kids) {key : Word}
    {i : Fin scheme.width} {below : List (Fin scheme.width)}
    (stem : stemOf scheme.width key = i :: below) (gone : kids i = .empty) :
    VerkleTrees.get scheme t key.bytes = .ok none := by
  obtain ⟨id, p, standing, _, _⟩ := shown.standing
  have turns : walkLimit t.disk.db (i.val :: below.map Fin.val) ≠ 0 :=
    Nat.mul_ne_zero (by omega) (by omega)
  obtain ⟨limit, more⟩ := Nat.exists_eq_succ_of_ne_zero turns
  have absent : refs scheme kids i = none := by rw [refs, gone, refOf_empty]
  simp only [VerkleTrees.get, splitKey_ok aligned.toCuts key, stem, rootNode, standing.root,
    Option.map_some, bind, Except.bind, more, getFrom, standing.shows.typed, List.map_cons,
    standing.shows.children, childList_get, absent, Option.map_none]

/-- Without commitments the root itself passes for the suffix node: at chunk 18
    it holds the reference of its child. -/
theorem stray_accepted {setup : SetupObject (ZMod CURVE_ORDER)[X] (ZMod CURVE_ORDER)[X]} {k bits : Nat}
    [NeZero (kzgScheme strayBackend setup).width] (ready : Ready setup k (rootOf 256) bits)
    (size : 256 = 2 ^ k) (ideal : SetupLogs (polynomialLogs 256) setup k (rootOf 256) X) :
    ∃ root witness,
      rootCommitment (insertRun (kzgScheme strayBackend setup) [(sampleKey, sampleValue)]).2 =
        some root ∧
      VerkleVerification.verifyProof strayBackend setup [strayValue.bytes] [strayKey.bytes] root
        ([[]], witness) = .ok true ∧
      VerkleTrees.get (kzgScheme strayBackend setup)
        (insertRun (kzgScheme strayBackend setup) [(sampleKey, sampleValue)]).2 strayKey.bytes =
          .ok none := by
  have lawful := stray_lawful ready
  have aligned : Aligned (kzgScheme strayBackend setup).width bits := ready.aligned
  obtain ⟨kids, tree, shown⟩ := first_represents lawful aligned.toCuts sampleKey sampleValue
    (ready_words ready [(sampleKey, sampleValue)] _ (List.prefix_refl _))
  obtain ⟨i, first, _, _, root, here, front, gone, _, held, _, rootPoint, _⟩ :=
    stray_nodes ready size ideal tree
  have residue (p : LowPolynomial 256) :
      (kzgScheme strayBackend setup).hashPointToField p < CURVE_ORDER := by
    have order : setup.modulus = CURVE_ORDER := ready.lays.order
    have hashed : (kzgScheme strayBackend setup).hashPointToField p = strayHash p % setup.modulus := rfl
    rw [hashed, order]
    exact Nat.mod_lt _ (by decide)
  have split : splitKey 256 strayKey.bytes = .ok (List.replicate 31 0, 18) := by decide
  obtain ⟨stem, suffix⟩ := stray_split ready size split
  have bounded : ofBytes strayValue.bytes ≤ CURVE_ORDER := by decide
  have value := array_opening ready size ideal (f := refs (kzgScheme strayBackend setup) kids)
    rootPoint i
  rw [here, held] at value
  have cancel : ErrorsCancel strayBackend (polynomialLogs 256) setup (rootOf 256)
      ((losslessCodec (LowPolynomial 256)).rootBytes root) root [] strayKey strayValue := by
    let claim : Claim (LowPolynomial 256) :=
      ⟨root, (suffixOf (kzgScheme strayBackend setup).width strayKey).val, ofBytes strayValue.bytes⟩
    let o := claim.opening (polynomialLogs 256) (factorAt strayBackend.sha256
      ((losslessCodec (LowPolynomial 256)).rootBytes root) (pathOf setup.width strayKey.bytes) 0)
    have exact : o.error (rootOf 256) = 0 := by
      rw [Opening.error, mul_eq_zero, sub_eq_zero]
      right
      simp only [o, claim, Claim.opening, suffix]
      exact value.trans (Int.cast_natCast _).symm
    refine ⟨[claim], rfl, fun j _ => ?_⟩
    change errorAt (rootOf 256) [o] j = 0
    rw [errorAt_cons, errorAt_nil, exact, add_zero, ite_self]
  obtain ⟨witness, accepted⟩ := (accepted_iff strayBackend ideal ready residue
    (fun _ => rfl) size root rfl [] strayKey strayValue).mpr ⟨bounded, cancel⟩
  refine ⟨root, witness, ?_, accepted, ?_⟩
  · obtain ⟨id, p, standing, _, _⟩ := shown.standing
    have same : some p = some root := standing.point.symm.trans rootPoint
    rw [rootCommitment, rootNode, standing.root, Option.map_some, Option.bind_some,
      standing.commitment, same]
  · cases shape : stemOf (kzgScheme strayBackend setup).width strayKey with
    | nil => simp [shape] at stem
    | cons j below =>
      rw [shape, List.map_cons] at stem
      have zero : j = first := Fin.ext ((List.cons.inj stem).1.trans front.symm)
      exact get_missing aligned shown shape (zero ▸ gone)

theorem single_not_sound : ∃ root witness,
    rootCommitment (insertRun (kzgScheme strayBackend (polynomialSetup (tablesOf 256)))
      [(sampleKey, sampleValue)]).2 = some root ∧
    VerkleVerification.verifyProof strayBackend (polynomialSetup (tablesOf 256)) [strayValue.bytes]
      [strayKey.bytes] root ([[]], witness) = .ok true ∧
    VerkleTrees.get (kzgScheme strayBackend (polynomialSetup (tablesOf 256)))
      (insertRun (kzgScheme strayBackend (polynomialSetup (tablesOf 256)))
        [(sampleKey, sampleValue)]).2 strayKey.bytes = .ok none := by
  obtain ⟨k, bits, size, ready, ideal⟩ := polynomial_ready (Or.inr rfl : 256 = 16 ∨ 256 = 256)
  exact stray_accepted ready size ideal

end Stray

end VerkleSoundness
