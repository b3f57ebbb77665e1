import StatelessEthereum.OptimizedAgreement
import StatelessEthereum.OptimizedMultiproof

/- When an optimized multiproof is accepted. Its prover opens an extension as an
   array of nothing, and that is not what the extension commits to. -/
namespace OptimizedCompleteness
open Polynomial PythonError BigEndian PutLog EvaluationDomain Fft PolyUtils KzgSetup KzgScheme
open CommitmentScheme HashScheme IdealCurve Openings VerkleOpenings VerkleChecks VerkleCompleteness
open OptimizedMultiproof
open VerkleProof (arrayValues generateWitness)
open VerkleTrees hiding insert get getKeyChunks
open VerkleSerialization
open StemTree hiding insert lookup
open VerkleStorage VerkleKey VerkleRuns
variable {Point G1 G2 FQ12 A : Type} [CommRing A] [Algebra (ZMod CURVE_ORDER) A]

def Leads (uniqueCommitments : List (UniqueCommitment Point)) (o : LevelOpening)
    (station : Station Point) : Prop :=
  ∃ stop, Resolves uniqueCommitments o stop ∧ Says stop station

theorem leads_all {uniqueCommitments : List (UniqueCommitment Point)} {openings : List LevelOpening}
    {stops : List (Stop Point)} {found : List (Station Point)}
    (resolves : List.Forall₂ (Resolves uniqueCommitments) openings stops)
    (tells : List.Forall₂ Says stops found) :
    List.Forall₂ (Leads uniqueCommitments) openings found := by
  induction resolves generalizing found with
  | nil =>
    cases tells
    exact .nil
  | cons here _ ih =>
    cases tells with
    | cons first rest => exact .cons ⟨_, here, first⟩ (ih rest)

/-- The factor of an opening by its place in the list of all. -/
def powerAt (r i : Nat) : ZMod CURVE_ORDER := (r : ZMod CURVE_ORDER) ^ i

theorem powerAt_succ {r power i : Nat} (reached : (power : ZMod CURVE_ORDER) = powerAt r i) :
    ((power * r % CURVE_ORDER : Nat) : ZMod CURVE_ORDER) = powerAt r (i + 1) := by
  rw [ZMod.natCast_mod, Nat.cast_mul, reached, powerAt, powerAt, pow_succ]

section Prover
variable {setup : SetupObject G1 G2} {k : Nat} {w : ZMod CURVE_ORDER}
  {uniqueCommitments : List (UniqueCommitment Point)}
  (lays : Lays setup.toTables CURVE_ORDER k w)
include lays

theorem addOpening_adds {o : LevelOpening} {station : Station Point}
    (leads : Leads uniqueCommitments o station)
    (fits : station.values.length = 2 ^ k ∧ station.index < 2 ^ k) (r power : Nat)
    {total : List Int} (totals : Totals (2 ^ k) total) :
    ∃ more, addOpening setup uniqueCommitments r (total, power) o =
        .ok (more, power * r % CURVE_ORDER) ∧ Totals (2 ^ k) more ∧
      lifted w (2 ^ k) more = lifted w (2 ^ k) total +
        (station.opening w (2 ^ k) (power : ZMod CURVE_ORDER)).term w (2 ^ k) X := by
  obtain ⟨stop, ⟨at_place, shape⟩, tells⟩ := leads
  obtain ⟨q, divided, sizeQ, totals', poly⟩ := quotient_added lays fits.1 fits.2 power totals
  have place : o.openingIdx = station.index := by rw [shape, Stop.opening, tells.index]
  refine ⟨_, ?_, totals', poly⟩
  simp only [addOpening, at_place, tells.values, place, divided, bind, Except.bind]
  rw [if_neg (by rw [totals.size, sizeQ]; exact Nat.lt_irrefl _)]

theorem addOpenings_ok {openings : List LevelOpening} {found : List (Station Point)}
    (leads : List.Forall₂ (Leads uniqueCommitments) openings found)
    (fits : ∀ station ∈ found, station.values.length = 2 ^ k ∧ station.index < 2 ^ k)
    {r power i : Nat} (reached : (power : ZMod CURVE_ORDER) = powerAt r i) {total : List Int}
    (totals : Totals (2 ^ k) total) :
    ∃ more, openings.foldlM (addOpening setup uniqueCommitments r) (total, power) = .ok more ∧
      Totals (2 ^ k) more.1 ∧ lifted w (2 ^ k) more.1 = lifted w (2 ^ k) total +
        Openings.total w (2 ^ k) X (openingsFrom w (2 ^ k) (powerAt r) i found) := by
  induction leads generalizing power i total with
  | nil => exact ⟨_, rfl, totals, by rw [openingsFrom, total_nil, add_zero]⟩
  | cons here _ ih =>
    obtain ⟨fits, later⟩ := List.forall_mem_cons.mp fits
    obtain ⟨next, run, totals', poly⟩ := addOpening_adds lays here fits r power totals
    obtain ⟨more, runs, totals'', poly'⟩ := ih later (powerAt_succ reached) totals'
    refine ⟨more, ?_, totals'', ?_⟩
    · rw [List.foldlM_cons, run]
      exact runs
    · rw [poly', poly, openingsFrom, total_cons, reached, add_assoc]

end Prover

def Stop.claim (stop : Stop Point) : Claim Point :=
  ⟨stop.unique.commitment, stop.index, stop.value⟩

theorem tells_claims {stops : List (Stop Point)} {found : List (Station Point)}
    (tells : List.Forall₂ Says stops found) :
    List.Forall₂ Tells (stops.map Stop.claim) found :=
  List.forall₂_map_left_iff.mpr
    (tells.imp fun _ _ here => ⟨here.point, here.index, here.leaf⟩)

theorem tells_inside {n : Nat} {stops : List (Stop Point)} {found : List (Station Point)}
    (tells : List.Forall₂ Says stops found) (inside : ∀ station ∈ found, station.index < n) :
    ∀ stop ∈ stops, stop.index < n := by
  induction tells with
  | nil => simp
  | cons here _ ih =>
    obtain ⟨first, later⟩ := List.forall_mem_cons.mp inside
    exact List.forall_mem_cons.mpr ⟨here.index ▸ first, ih later⟩

section Verifier
variable {backend : Backend Point G1 G2 FQ12} {setup : SetupObject G1 G2} {k : Nat}
  {w : ZMod CURVE_ORDER} {logs : Logarithms backend.curve A} {s : A}
  {uniqueCommitments : List (UniqueCommitment Point)} (ideal : SetupLogs logs setup k w s)
include ideal

theorem checkOpening_adds {o : LevelOpening} {stop : Stop Point}
    (resolves : Resolves uniqueCommitments o stop) (inside : stop.index < 2 ^ k) (r power : Nat)
    (pairingCheck : FQ12) :
    ∃ out, checkOpening backend setup uniqueCommitments r (pairingCheck, power) o =
        .ok (out, power * r % CURVE_ORDER) ∧ logs.logT out = logs.logT pairingCheck +
      ((Stop.claim stop).opening logs (power : ZMod CURVE_ORDER)).term w (2 ^ k) s := by
  obtain ⟨at_place, shape⟩ := resolves
  obtain ⟨z, made, log⟩ := cofactorPoint_log ideal inside
  have place : o.openingIdx = stop.index := by rw [shape, Stop.opening]
  have value : o.value = stop.value := by rw [shape, Stop.opening]
  have residue : 0 ≤ ((CURVE_ORDER : Int) - stop.value) % CURVE_ORDER := (mod_reduced _).1
  have negated : (((((CURVE_ORDER : Int) - stop.value) % CURVE_ORDER).toNat : Nat) : A) =
      - algebraMap (ZMod CURVE_ORDER) A ((stop.value : Int) : ZMod CURVE_ORDER) := by
    rw [cast_toNat residue, ZMod.intCast_mod, Int.cast_sub, Int.cast_natCast, ZMod.natCast_self,
      zero_sub, map_neg]
  refine ⟨_, by simp only [checkOpening, at_place, place, value, ideal.lays.order, made, bind,
    Except.bind]; rfl, ?_⟩
  simp only [logs.logT_mul, logs.logT_pairing, log, logs.log_multiply, logs.log_add,
    logs.log_generator, mul_one, negated, Stop.claim, Claim.opening, Opening.term, map_natCast]
  ring

theorem checkOpenings_ok {openings : List LevelOpening} {stops : List (Stop Point)}
    (resolves : List.Forall₂ (Resolves uniqueCommitments) openings stops)
    (inside : ∀ stop ∈ stops, stop.index < 2 ^ k) {r power i : Nat}
    (reached : (power : ZMod CURVE_ORDER) = powerAt r i) (pairingCheck : FQ12) :
    ∃ out, openings.foldlM (checkOpening backend setup uniqueCommitments r) (pairingCheck, power) =
        .ok out ∧ logs.logT out.1 = logs.logT pairingCheck + Openings.total w (2 ^ k) s
          (claimedFrom logs (powerAt r) i (stops.map Stop.claim)) := by
  induction resolves generalizing power i pairingCheck with
  | nil => exact ⟨_, rfl, by rw [List.map_nil, claimedFrom, total_nil, add_zero]⟩
  | cons here _ ih =>
    obtain ⟨inside, later⟩ := List.forall_mem_cons.mp inside
    obtain ⟨next, run, log⟩ := checkOpening_adds ideal here inside r power pairingCheck
    obtain ⟨out, runs, log'⟩ := ih later (powerAt_succ reached) next
    refine ⟨out, ?_, ?_⟩
    · rw [List.foldlM_cons, run]
      exact runs
    · rw [log', log, List.map_cons, claimedFrom, total_cons, reached, add_assoc]

end Verifier

/- What the extensions add to the verifier's sum. -/
section Gap
variable {backend : Backend Point G1 G2 FQ12} {setup : SetupObject G1 G2} {k bits : Nat}
  {w : ZMod CURVE_ORDER} {logs : Logarithms backend.curve A} {s : A}

theorem bare_values (n : Nat) : arrayValues (List.replicate n none) = List.replicate n 0 := by
  simp [arrayValues, childValues, childValue]

variable (backend) in
theorem bareStations_fit (ready : Ready setup k w bits) (t : Trie (kzgScheme backend setup).width)
    (digits : List (Fin (kzgScheme backend setup).width)) (x : Fin (kzgScheme backend setup).width) :
    ∀ station ∈ bareStations (kzgScheme backend setup) t digits x,
      station.values.length = 2 ^ k ∧ station.index < 2 ^ k := by
  have width : (kzgScheme backend setup).width = 2 ^ k := ready.lays.size
  induction t generalizing digits with
  | empty => simp [bareStations]
  | group stem slots =>
    intro station member
    rw [bareStations, List.mem_singleton] at member
    subst member
    refine ⟨?_, width ▸ x.isLt⟩
    rw [bareStation, bare_values, List.length_replicate, width]
  | inner kids ih =>
    cases digits with
    | nil => simp [bareStations]
    | cons i digits =>
      intro station member
      rw [bareStations, List.mem_cons] at member
      rcases member with rfl | below
      · exact ⟨(arrayValues_length _).trans width, width ▸ i.isLt⟩
      · exact ih i digits station below

theorem bare_claimed (commits : Commits backend logs setup k w s) (ready : Ready setup k w bits)
    (factor : Nat → ZMod CURVE_ORDER) {t : Trie (kzgScheme backend setup).width}
    {digits : List (Fin (kzgScheme backend setup).width)} (deep : Deep t digits)
    {x : Fin (kzgScheme backend setup).width} {claims : List (Claim Point)}
    (tells : List.Forall₂ Tells claims (bareStations (kzgScheme backend setup) t digits x))
    {p : Point} (last : ((stations (kzgScheme backend setup) t digits x).map Station.point)[digits.length]? =
      some (some p)) (level : Nat) :
    Openings.total w (2 ^ k) s (claimedFrom logs factor level claims) =
      aeval s (Openings.total w (2 ^ k) X (openingsFrom w (2 ^ k) factor level
        (bareStations (kzgScheme backend setup) t digits x))) +
      algebraMap (ZMod CURVE_ORDER) A (factor (level + digits.length)) *
        (logs.log (backend.curve.lift p) * aeval s (cofactor w (2 ^ k) x.val)) := by
  have width : (kzgScheme backend setup).width = 2 ^ k := ready.lays.size
  induction t generalizing digits claims level with
  | empty => exact deep.elim
  | group stem slots =>
    cases digits with
    | cons i digits => exact deep.elim
    | nil =>
      obtain ⟨claim, tail, here, none, rfl⟩ := List.forall₂_cons_right_iff.mp tells
      cases none
      have point : some claim.point = some p :=
        here.point.symm.trans (Option.some.inj last)
      have values : (bareStation (kzgScheme backend setup) stem slots x).values =
          List.replicate (2 ^ k) 0 := (bare_values _).trans (congrArg (List.replicate · 0) width)
      have inside : x.val < 2 ^ k := width ▸ x.isLt
      have value : residues (List.replicate (2 ^ k) (0 : Int)) x.val = (0 : ZMod CURVE_ORDER) := by
        simp [residues, List.getD_eq_getElem?_getD, inside]
      have index : (bareStation (kzgScheme backend setup) stem slots x).index = x.val := rfl
      simp only [claimedFrom, bareStations, openingsFrom, total_cons, total_nil, add_zero,
        List.length_nil, Opening.term, Claim.opening, Station.opening, trueOpening, values, value,
        interp_zeros ready.lays.primitive, here.leaf, bare_leaf, here.index, index,
        Option.some.inj point, Int.cast_zero, map_zero, sub_zero, zero_mul, mul_zero, zero_add]
  | inner kids ih =>
    cases digits with
    | nil => exact deep.elim
    | cons i digits =>
      obtain ⟨claim, tail, here, below, rfl⟩ := List.forall₂_cons_right_iff.mp tells
      have rest := ih i deep below (by simpa [stations] using last) (level + 1)
      have head : claimedFrom logs factor level [claim] = (openingsFrom w (2 ^ k) factor level
          [arrayStation (kzgScheme backend setup) .internal (refs (kzgScheme backend setup) kids)
            i]).map (Opening.map (aeval s)) :=
        claimed_true (.cons here .nil) (by
          intro station member p point
          rw [List.mem_singleton] at member
          subst member
          exact array_log commits ready point) level
      have term := congrArg (Openings.total w (2 ^ k) s) head
      rw [total_at, claimedFrom, openingsFrom, claimedFrom, openingsFrom, total_cons, total_cons,
        total_nil, total_nil, add_zero, add_zero] at term
      rw [claimedFrom, total_cons, term, rest, bareStations, openingsFrom, total_cons, map_add,
        List.length_cons, show level + 1 + digits.length = level + (digits.length + 1) by omega,
        add_assoc]

theorem keys_claimed [NeZero (kzgScheme backend setup).width]
    (commits : Commits backend logs setup k w s) (ready : Ready setup k w bits)
    {kids : Fin (kzgScheme backend setup).width → Trie (kzgScheme backend setup).width}
    (point : Word → Point) (r : Nat) {keys : List Word}
    (deep : ∀ key ∈ keys, KeyDeep backend setup kids key)
    (last : ∀ key ∈ keys, ((keyStations backend setup kids key).map Station.point)[
      (stemOf (kzgScheme backend setup).width key).length]? = some (some (point key)))
    {claims : List (Claim Point)}
    (tells : List.Forall₂ Tells claims (keys.flatMap (keyBareStations backend setup kids)))
    (before : Nat) :
    Openings.total w (2 ^ k) s (claimedFrom logs (powerAt r)
        (before * (VerkleKey.depth (kzgScheme backend setup).width + 2)) claims) =
      aeval s (Openings.total w (2 ^ k) X (openingsFrom w (2 ^ k) (powerAt r)
        (before * (VerkleKey.depth (kzgScheme backend setup).width + 2))
        (keys.flatMap (keyBareStations backend setup kids)))) +
      ((keys.zipIdx before).map fun e => algebraMap (ZMod CURVE_ORDER) A (powerAt r
          ((e.2 + 1) * (VerkleKey.depth (kzgScheme backend setup).width + 2) - 1)) *
        (logs.log (backend.curve.lift (point e.1)) * aeval s (cofactor w (2 ^ k)
          (suffixOf (kzgScheme backend setup).width e.1).val))).sum := by
  have aligned : Aligned (kzgScheme backend setup).width bits := ready.aligned
  induction keys generalizing claims before with
  | nil =>
    cases tells
    simp [claimedFrom, openingsFrom]
  | cons key keys ih =>
    have own := deep key List.mem_cons_self
    have stem := stemOf_length aligned.toCuts key
    have size : (keyBareStations backend setup kids key).length =
        VerkleKey.depth (kzgScheme backend setup).width + 2 := by
      rw [keyBareStations, bareStations_length own, stem]
    rw [List.flatMap_cons] at tells
    have first := List.forall₂_take_append _ _ _ tells
    have rest := List.forall₂_drop_append _ _ _ tells
    rw [size] at first rest
    have here := bare_claimed commits ready (powerAt r) own first (last key List.mem_cons_self)
      (before * (VerkleKey.depth (kzgScheme backend setup).width + 2))
    have later := ih (fun key member => deep key (List.mem_cons_of_mem _ member))
      (fun key member => last key (List.mem_cons_of_mem _ member)) rest (before + 1)
    have next : before * (VerkleKey.depth (kzgScheme backend setup).width + 2) +
        (VerkleKey.depth (kzgScheme backend setup).width + 2) =
          (before + 1) * (VerkleKey.depth (kzgScheme backend setup).width + 2) := by
      rw [Nat.succ_mul]
    have level : before * (VerkleKey.depth (kzgScheme backend setup).width + 2) +
        (stemOf (kzgScheme backend setup).width key).length =
          (before + 1) * (VerkleKey.depth (kzgScheme backend setup).width + 2) - 1 := by
      omega
    rw [← List.take_append_drop (VerkleKey.depth (kzgScheme backend setup).width + 2) claims,
      claimedFrom_append, first.length_eq, total_append, here, List.flatMap_cons, size, next, later,
      openingsFrom_append, size, next, total_append, map_add, List.zipIdx_cons, List.map_cons,
      List.sum_cons, level]
    rw [keyBareStations]
    ring

end Gap

/- One tree. -/

/-- The commitment before the last of the plain proof of a key, that of its extension. -/
def extensionOf (scheme : Scheme Point) (tree : VerkleTree Point) (key : Bytes) : Option Point :=
  match getProofTree scheme tree key with
  | .ok proof => proof[proof.length - 2]?
  | .error _ => none

/-- The plain proof of a key has a commitment for each of its chunks. -/
def FullDepth (scheme : Scheme Point) (tree : VerkleTree Point) (key : Bytes) : Prop :=
  ∃ proof, getProofTree scheme tree key = .ok proof ∧
    proof.length = (keyChunks scheme.width key).length

/-- The logarithms of the extensions, weighted as the verifier does: with a power
    of the challenge for every chunk opened so far, and a cofactor for the last. -/
noncomputable def leftOver (backend : Backend Point G1 G2 FQ12) (setup : SetupObject G1 G2)
    (tree : VerkleTree Point) (logs : Logarithms backend.curve A) (s : A) (r : Nat)
    (keys : List Word) : A :=
  (keys.zipIdx.map fun e => algebraMap (ZMod CURVE_ORDER) A
      (powerAt r ((e.2 + 1) * (keyChunks setup.width e.1.bytes).length - 1)) *
    (((extensionOf (kzgScheme backend setup) tree e.1.bytes).elim 0 fun p =>
        logs.log (backend.curve.lift p)) *
      aeval s (cofactor (setup.rootOfUnity : ZMod CURVE_ORDER) setup.width
        (ofBytes e.1.bytes % setup.width)))).sum

section Proofs
variable {backend : Backend Point G1 G2 FQ12} {setup : SetupObject G1 G2} {k bits : Nat}
  {w : ZMod CURVE_ORDER} {logs : Logarithms backend.curve A} {s : A} {tree : VerkleTree Point}
  {kids : Fin (kzgScheme backend setup).width → Trie (kzgScheme backend setup).width}
  [NeZero (kzgScheme backend setup).width] (grown : Grown backend setup k w bits tree kids)
include grown

theorem fullDepth_iff {key : Word} (found : stored backend setup kids key ≠ none) :
    FullDepth (kzgScheme backend setup) tree key.bytes ↔ KeyDeep backend setup kids key := by
  have aligned : Aligned (kzgScheme backend setup).width bits := grown.ready.aligned
  have passed := proofOf_length grown found
  have deep : KeyDeep backend setup kids key ↔ (keyStations backend setup kids key).length = _ :=
    deep_iff found
  rw [deep, ← passed, stemOf_length aligned.toCuts]
  constructor
  · rintro ⟨proof, given, size⟩
    rw [getProofTree_ok grown, Except.ok.injEq] at given
    rw [given, size, keyChunks_length aligned.toCuts]
  · intro size
    refine ⟨_, getProofTree_ok grown key, ?_⟩
    rw [keyChunks_length aligned.toCuts]
    omega

theorem extensionOf_deep {key : Word} (found : stored backend setup kids key ≠ none)
    (deep : KeyDeep backend setup kids key) :
    ∃ p, extensionOf (kzgScheme backend setup) tree key.bytes = some p ∧
      ((keyStations backend setup kids key).map Station.point)[
        (stemOf (kzgScheme backend setup).width key).length]? = some (some p) := by
  have aligned : Aligned (kzgScheme backend setup).width bits := grown.ready.aligned
  have stem := stemOf_length aligned.toCuts key
  have size : (keyStations backend setup kids key).length = _ := (deep_iff found).mp deep
  obtain ⟨ps, points⟩ := station_known (ready_lawful grown.faithful grown.ready)
    (ready_narrow grown.ready) (.inner kids) (stemOf (kzgScheme backend setup).width key)
    (suffixOf (kzgScheme backend setup).width key)
  have sizes : ps.length = (keyStations backend setup kids key).length := by
    rw [keyStations, ← List.length_map (f := Station.point), points, List.length_map]
  have proof : proofOf (kzgScheme backend setup) (.inner kids)
      (stemOf (kzgScheme backend setup).width key) = ps.drop 1 := by
    rw [proofOf, proofPoints_stations (x := suffixOf (kzgScheme backend setup).width key) found, points,
      ← List.map_drop, List.filterMap_map]
    exact List.filterMap_some
  have inside : (stemOf (kzgScheme backend setup).width key).length < ps.length := by omega
  refine ⟨ps[(stemOf (kzgScheme backend setup).width key).length], ?_, ?_⟩
  · simp only [extensionOf, getProofTree_ok grown, proof]
    rw [List.getElem?_drop, List.length_drop, show 1 + (ps.length - 1 - 2) =
      (stemOf (kzgScheme backend setup).width key).length by omega, List.getElem?_eq_getElem inside]
  · rw [keyStations, points, List.getElem?_map, List.getElem?_eq_getElem inside, Option.map_some]

variable [DecidableEq Point]

/-- A prover that returns has met no extension before the last chunk. -/
theorem generateProof_deep {keys : List Word}
    (found : ∀ key ∈ keys, stored backend setup kids key ≠ none) {proof : ProofDict Point × Point}
    (run : generateProof backend setup tree (keys.map Word.bytes) = .ok proof) :
    ∀ key ∈ keys, KeyDeep backend setup kids key := by
  obtain ⟨p, root, _, known, commitment, object⟩ := grown_root grown
  have paths := mapM_map_ok (l := keys) (h := Word.bytes)
    fun key _ => (pathOf_ok grown.ready key.bytes).1
  simp only [generateProof, known, paths, commitment, bind, Except.bind] at run
  obtain ⟨rootBytes, _, run⟩ := ok_of_bind run
  obtain ⟨r, _, run⟩ := ok_of_bind run
  obtain ⟨opened, loop, _⟩ := ok_of_bind run
  exact openKeys_deep grown object found loop

variable (ideal : SetupLogs logs setup k w s) (exact : logs.Lossless)
include ideal exact

omit [DecidableEq Point] in
/-- The sum over the claims of all walks is that of the prover but for what the
    extensions leave over. -/
theorem claims_sum {keys : List Word} (found : ∀ key ∈ keys, stored backend setup kids key ≠ none)
    (deep : ∀ key ∈ keys, KeyDeep backend setup kids key) (r : Nat) {claims : List (Claim Point)}
    (tells : List.Forall₂ Tells claims (keys.flatMap (keyBareStations backend setup kids))) :
    Openings.total w (2 ^ k) s (claimedFrom logs (powerAt r) 0 claims) =
      aeval s (Openings.total w (2 ^ k) X (openingsFrom w (2 ^ k) (powerAt r) 0
        (keys.flatMap (keyBareStations backend setup kids)))) +
      leftOver backend setup tree logs s r keys := by
  have aligned : Aligned (kzgScheme backend setup).width bits := grown.ready.aligned
  have width : setup.width = 2 ^ k := grown.ready.lays.size
  have root : (setup.rootOfUnity : ZMod CURVE_ORDER) = w := grown.ready.lays.root
  obtain ⟨point, extension⟩ : ∃ point : Word → Point, ∀ key ∈ keys,
      extensionOf (kzgScheme backend setup) tree key.bytes = some (point key) ∧
        ((keyStations backend setup kids key).map Station.point)[
          (stemOf (kzgScheme backend setup).width key).length]? = some (some (point key)) := by
    obtain ⟨p, _⟩ := grown_root grown
    refine ⟨fun key => (extensionOf (kzgScheme backend setup) tree key.bytes).getD p, ?_⟩
    intro key member
    obtain ⟨q, known, last⟩ := extensionOf_deep grown (found key member) (deep key member)
    simp only [known, Option.getD_some, last, and_self]
  have sums := keys_claimed (lossless_commits ideal exact) grown.ready point r deep
    (fun key member => (extension key member).2) tells 0
  rw [Nat.zero_mul] at sums
  rw [sums, leftOver]
  congr 2
  apply List.map_congr_left
  intro e member
  have inside : e.1 ∈ keys := by
    have here := List.mem_map_of_mem (f := Prod.fst) member
    rwa [List.zipIdx_map_fst] at here
  have chunks : (keyChunks setup.width e.1.bytes).length =
      VerkleKey.depth (kzgScheme backend setup).width + 2 := keyChunks_length aligned.toCuts e.1.bytes
  have suffix : (suffixOf (kzgScheme backend setup).width e.1).val = ofBytes e.1.bytes % setup.width :=
    suffixOf_mod aligned e.1
  rw [(extension e.1 inside).1, Option.elim_some, chunks, suffix, root, width]

theorem proof_verdict [DecidableEq FQ12] {keys : List Word}
    (found : ∀ key ∈ keys, stored backend setup kids key ≠ none)
    (deep : ∀ key ∈ keys, KeyDeep backend setup kids key) :
    ∃ root rootBytes r proof, nodePoint (kzgScheme backend setup) (.inner kids) = some root ∧
      backend.format.generateRootBytes root = .ok rootBytes ∧
      deriveR backend.sha256 rootBytes (keys.map fun key => pathOf setup.width key.bytes) CURVE_ORDER =
        .ok r ∧
      generateProof backend setup tree (keys.map Word.bytes) = .ok proof ∧
      ∀ values others root', verifyProof backend setup values others root' proof = .ok true ↔
        leftOver backend setup tree logs s r keys = 0 := by
  obtain ⟨p, root, point, known, commitment, object⟩ := grown_root grown
  obtain ⟨rootBytes, bytes⟩ := grown.faithful.root_bytes p
  have paths := mapM_map_ok (l := keys) (h := Word.bytes)
    fun key _ => (pathOf_ok grown.ready key.bytes).1
  obtain ⟨r, derived⟩ := deriveR_ok backend.sha256 rootBytes
    (keys.map fun key => pathOf setup.width key.bytes) (by
      intro path member
      obtain ⟨key, _, rfl⟩ := List.mem_map.mp member
      exact (pathOf_ok grown.ready key.bytes).2) CURVE_ORDER
  obtain ⟨stops, opens, tells, placed⟩ := openKeys_opens grown object keys deep
  have resolves := record_resolves grown.valid placed
  have fits : ∀ station ∈ keys.flatMap (keyBareStations backend setup kids),
      station.values.length = 2 ^ k ∧ station.index < 2 ^ k := by
    intro station member
    obtain ⟨key, _, inside⟩ := List.mem_flatMap.mp member
    exact bareStations_fit backend grown.ready _ _ _ station inside
  have one : ((1 : Nat) : ZMod CURVE_ORDER) = powerAt r 0 := by
    rw [powerAt, pow_zero, Nat.cast_one]
  obtain ⟨⟨total, _⟩, sum, totals, poly⟩ := addOpenings_ok grown.ready.lays
    (leads_all resolves tells) fits one (totals_zero (2 ^ k))
  rw [← grown.ready.lays.size] at sum
  obtain ⟨witness, made, log⟩ := generateWitness_log ideal exact totals
  refine ⟨p, rootBytes, r, (⟨(keys.map Word.bytes).map hex, (keys.map fun _ => []).map hex, p,
    (record .empty stops).1.entries, (record .empty stops).2,
    keys.map fun key => pathOf setup.width key.bytes, witness, (record .empty stops).2.length⟩, witness),
    point, bytes, derived, ?_, fun values others root' => ?_⟩
  · simp only [generateProof, known, paths, commitment, bytes, derived, opens .empty, sum, made, bind,
      Except.bind]
  have inside := tells_inside tells fun station member => (fits station member).2
  obtain ⟨⟨out, _⟩, checked, log'⟩ := checkOpenings_ok ideal resolves inside one backend.curve.one
  obtain ⟨final, last, log''⟩ := checkWitness_ok ideal witness out
  have sums := claims_sum grown ideal exact found deep r (tells_claims tells)
  rw [lifted_zero grown.ready.lays.primitive, zero_add] at poly
  simp only [verifyProof, bytes, derived, checked, last, bind, Except.bind]
  rw [Except.ok.injEq, decide_eq_true_iff, logs.final, log'', log', log, poly, logs.logT_one, zero_add,
    sums, add_sub_cancel_left]

end Proofs

/- Whole runs. -/

/-- The prover returns, and the verifier accepts its proof for the inserted values. -/
def Completes [DecidableEq Point] [DecidableEq FQ12] (backend : Backend Point G1 G2 FQ12)
    (setup : SetupObject G1 G2) (tree : VerkleTree Point) (entries : List (Word × Word)) : Prop :=
  ∃ root proof, rootCommitment tree = some root ∧
    generateProof backend setup tree (entries.map fun e => e.1.bytes) = .ok proof ∧
    verifyProof backend setup (entries.map fun e => e.2.bytes) (entries.map fun e => e.1.bytes) root
      proof = .ok true

/-- The optimized multiproof of inserted keys is accepted if and only if no walk
    meets an extension before the last chunk and the extensions that are opened
    there, as arrays of nothing, leave nothing over. -/
theorem optimized_completes_iff {width : Nat} (supported : width = 16 ∨ width = 256)
    [DecidableEq FQ12] {curve : Curve Point2D G1 G2 FQ12} (logs : Logarithms curve (ZMod CURVE_ORDER))
    (exact : logs.Lossless) (logFloor : Nat → Nat) (sha256 : Bytes → Bytes) {zlib : Zlib}
    (lossless : zlib.Lossless) {secret : Nat} {setup : SetupObject G1 G2}
    (made : verkleKzgSetup curve secret width = .ok setup) (run : List (Word × Word))
    (valid : (insertRun (plainScheme curve logFloor sha256 zlib setup) run).2.disk.db.Consistent)
    (entries : List (Word × Word)) (occupied : entries ≠ [])
    (inserted : ∀ e ∈ entries, lastInserted run e.1 = some e.2) :
    Completes (plainBackend curve logFloor sha256 zlib) setup
        (insertRun (plainScheme curve logFloor sha256 zlib setup) run).2 entries ↔
      (∀ e ∈ entries, FullDepth (plainScheme curve logFloor sha256 zlib setup)
        (insertRun (plainScheme curve logFloor sha256 zlib setup) run).2 e.1.bytes) ∧
      ∃ root rootBytes r,
        rootCommitment (insertRun (plainScheme curve logFloor sha256 zlib setup) run).2 = some root ∧
        HashScheme.generateRootBytes root = .ok rootBytes ∧
        deriveR sha256 rootBytes (entries.map fun e => keyChunks width e.1.bytes) CURVE_ORDER = .ok r ∧
        leftOver (plainBackend curve logFloor sha256 zlib) setup
          (insertRun (plainScheme curve logFloor sha256 zlib setup) run).2 logs
          (secret : ZMod CURVE_ORDER) r (entries.map Prod.fst) = 0 := by
  have size := made_width made
  subst size
  have present : ∀ key ∈ entries.map Prod.fst, lastInserted run key ≠ none := by
    intro key member
    obtain ⟨e, inside, rfl⟩ := List.mem_map.mp member
    simp [inserted e inside]
  obtain ⟨k, w, bits, kids, positive, standard, grown, _, found⟩ := OptimizedAgreement.run_found
    supported curve logFloor sha256 lossless made run valid (entries.map Prod.fst) (by simpa) present
  have ideal := standard_logs logs standard
  have paths : ((entries.map Prod.fst).map fun key => pathOf setup.width key.bytes) =
      entries.map fun e => keyChunks setup.width e.1.bytes := by
    rw [List.map_map]
    apply List.map_congr_left
    intro e _
    rw [Function.comp_apply, pathOf, keyToPath_chunks grown.ready.aligned]
    rfl
  have keys : (entries.map Prod.fst).map Word.bytes = entries.map fun e => e.1.bytes := List.map_map
  have top := grown_rootCommitment grown
  have full (e : Word × Word) (member : e ∈ entries) :
      FullDepth (plainScheme curve logFloor sha256 zlib setup)
        (insertRun (plainScheme curve logFloor sha256 zlib setup) run).2 e.1.bytes ↔
      KeyDeep (plainBackend curve logFloor sha256 zlib) setup kids e.1 :=
    fullDepth_iff grown (found e.1 (List.mem_map_of_mem member))
  constructor
  · rintro ⟨root, proof, known, generated, accepted⟩
    rw [← keys] at generated
    have deep := generateProof_deep grown found generated
    obtain ⟨p, rootBytes, r, proof', point, bytes, derived, generated', verdict⟩ :=
      proof_verdict grown ideal exact found deep
    rw [generated, Except.ok.injEq] at generated'
    subst generated'
    rw [paths] at derived
    exact ⟨fun e member => (full e member).mpr (deep e.1 (List.mem_map_of_mem member)),
      p, rootBytes, r, top.trans point, bytes, derived, (verdict _ _ _).mp accepted⟩
  · rintro ⟨all, root, rootBytes, r, known, bytes, derived, balanced⟩
    have deep : ∀ key ∈ entries.map Prod.fst,
        KeyDeep (plainBackend curve logFloor sha256 zlib) setup kids key := by
      intro key member
      obtain ⟨e, inside, rfl⟩ := List.mem_map.mp member
      exact (full e inside).mp (all e inside)
    obtain ⟨p, rootBytes', r', proof, point, bytes', derived', generated, verdict⟩ :=
      proof_verdict grown ideal exact found deep
    have same : root = p := Option.some.inj (known.symm.trans (top.trans point))
    subst same
    obtain rfl : rootBytes = rootBytes' := Except.ok.inj (bytes.symm.trans bytes')
    rw [paths] at derived'
    obtain rfl : r = r' := Except.ok.inj (derived.symm.trans derived')
    rw [keys] at generated
    exact ⟨root, proof, known, generated, (verdict _ _ _).mpr balanced⟩

theorem optimized_completes_sample :
    Completes (plainBackend forkCurve sampleLogFloor forkSha256 forkZlib) forkSetup
        (insertRun (plainScheme forkCurve sampleLogFloor forkSha256 forkZlib forkSetup)
          forkRun).2 forkRun ↔
      (∀ e ∈ forkRun,
        FullDepth (plainScheme forkCurve sampleLogFloor forkSha256 forkZlib forkSetup)
          (insertRun (plainScheme forkCurve sampleLogFloor forkSha256 forkZlib forkSetup)
            forkRun).2 e.1.bytes) ∧
      ∃ root rootBytes r,
        rootCommitment (insertRun (plainScheme forkCurve sampleLogFloor forkSha256 forkZlib forkSetup)
          forkRun).2 = some root ∧
        HashScheme.generateRootBytes root = .ok rootBytes ∧
        deriveR forkSha256 rootBytes (forkRun.map fun e =>
          keyChunks 16 e.1.bytes) CURVE_ORDER = .ok r ∧
        leftOver (plainBackend forkCurve sampleLogFloor forkSha256 forkZlib) forkSetup
          (insertRun (plainScheme forkCurve sampleLogFloor forkSha256 forkZlib forkSetup)
            forkRun).2 forkLogs ((5 : Nat) : ZMod CURVE_ORDER) r
          (forkRun.map Prod.fst) = 0 := by
  have present : ∀ e ∈ forkRun,
      lastInserted forkRun e.1 = some e.2 := by decide
  exact optimized_completes_iff (Or.inl rfl) forkLogs forkLogs_lossless sampleLogFloor forkSha256
    forkZlib_lossless forkSetup_made forkRun forkRun_consistent
    forkRun (List.cons_ne_nil _ _) present

/-- The walk of the only key meets its extension at the second chunk, and the
    prover raises. -/
theorem sample_incomplete :
    verkleKzgSetup forkCurve 5 16 = .ok forkSetup ∧
      (insertRun (plainScheme forkCurve sampleLogFloor forkSha256 forkZlib forkSetup)
        [(sampleKey, sampleValue)]).2.disk.db.Consistent ∧
      lastInserted [(sampleKey, sampleValue)] sampleKey = some sampleValue ∧
      ¬ Completes (plainBackend forkCurve sampleLogFloor forkSha256 forkZlib) forkSetup
        (insertRun (plainScheme forkCurve sampleLogFloor forkSha256 forkZlib forkSetup)
          [(sampleKey, sampleValue)]).2 [(sampleKey, sampleValue)] := by
  refine ⟨forkSetup_made, forkRun_first, by decide, ?_⟩
  rintro ⟨root, proof, _, run, _⟩
  have raises : (generateProof (plainBackend forkCurve sampleLogFloor forkSha256 forkZlib)
      forkSetup (insertRun (plainScheme forkCurve sampleLogFloor forkSha256 forkZlib forkSetup)
        [(sampleKey, sampleValue)]).2
          ([(sampleKey, sampleValue)].map fun e => e.1.bytes)).toBool = false := by
    rw [plainScheme_sum _ _ forkCurve_residual]
    decide +kernel
  rw [run] at raises
  cases raises

end OptimizedCompleteness
