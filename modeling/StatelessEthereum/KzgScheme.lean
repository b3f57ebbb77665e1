import StatelessEthereum.CommitmentScheme
import StatelessEthereum.HashScheme
import StatelessEthereum.VerkleRuns

/- The Verkle tree over its trusted setup: the scheme its operations use, and
   what whole runs of inserts then give. -/
namespace KzgScheme
open PythonError BigEndian PolyUtils PutLog VerkleSerialization KzgSetup
open VerkleTrees hiding insert get
open VerkleStorage VerkleKey VerkleRuns
variable {Point G1 G2 FQ12 : Type}

/-- How a commitment is hashed and laid out as bytes. -/
structure PointFormat (Point : Type) where
  hashPointToField : Point → Nat → Nat
  generateRootBytes : Point → Except PyError Bytes
  serializeArrayNode : UInt8 → Point → List (Option Bytes) → Except PyError Bytes
  serializeExtensionNode : Point → Bytes → Option Bytes → Except PyError Bytes
  deserializeAnyNode : Bytes → Except PyError (AnyNode Point)

/-- What the code takes from outside, and the format of its commitments. -/
structure Backend (Point G1 G2 FQ12 : Type) where
  curve : Curve Point G1 G2 FQ12
  logFloor : Nat → Nat
  sha256 : Bytes → Bytes
  format : PointFormat Point

def plainFormat (sha256 : Bytes → Bytes) (zlib : Zlib) : PointFormat Point2D where
  hashPointToField := HashScheme.hashPointToField sha256
  generateRootBytes := HashScheme.generateRootBytes
  serializeArrayNode := serializeArrayNode zlib
  serializeExtensionNode := serializeExtensionNode zlib
  deserializeAnyNode := deserializeAnyNode zlib

def plainBackend (curve : Curve Point2D G1 G2 FQ12) (logFloor : Nat → Nat)
    (sha256 : Bytes → Bytes) (zlib : Zlib) : Backend Point2D G1 G2 FQ12 :=
  ⟨curve, logFloor, sha256, plainFormat sha256 zlib⟩

def kzgScheme (backend : Backend Point G1 G2 FQ12) (setup : SetupObject G1 G2) : Scheme Point where
  width := setup.width
  commit values := CommitmentScheme.commit backend.curve backend.logFloor setup
    (values.map Int.ofNat)
  commitExtension := CommitmentScheme.commitExtension backend.curve backend.logFloor setup
  hashPointToField p := backend.format.hashPointToField p setup.modulus
  serializeArrayNode := backend.format.serializeArrayNode
  serializeExtensionNode := backend.format.serializeExtensionNode
  deserializeAnyNode := backend.format.deserializeAnyNode

def plainScheme (curve : Curve Point2D G1 G2 FQ12) (logFloor : Nat → Nat) (sha256 : Bytes → Bytes)
    (zlib : Zlib) (setup : SetupObject G1 G2) : Scheme Point2D :=
  kzgScheme (plainBackend curve logFloor sha256 zlib) setup

/-- A format that gives residues as hashes and reads back what it writes. -/
structure Faithful (format : PointFormat Point) : Prop where
  hash_residue : ∀ p modulus, 0 < modulus → format.hashPointToField p modulus < modulus
  root_bytes : ∀ p, ∃ bytes, format.generateRootBytes p = .ok bytes
  array_lossless : ∀ flag p children, flag = PREFIX_INTERNAL ∨ flag = PREFIX_SUFFIX →
    children.length < 256 ^ 2 → Readable children →
    ∃ encoded, format.serializeArrayNode flag p children = .ok encoded ∧
      format.deserializeAnyNode encoded = .ok (.array flag p children)
  extension_lossless : ∀ p stem h, stem.length < 256 → h.length = 32 →
    ∃ encoded, format.serializeExtensionNode p stem (some h) = .ok encoded ∧
      format.deserializeAnyNode encoded = .ok (.extension p stem h)

theorem plainFormat_faithful (sha256 : Bytes → Bytes) {zlib : Zlib} (lossless : zlib.Lossless) :
    Faithful (plainFormat sha256 zlib) where
  hash_residue _ _ positive := Nat.mod_lt _ positive
  root_bytes := HashScheme.generateRootBytes_ok
  array_lossless _ p _ kind few readable := array_lossless lossless kind p few readable
  extension_lossless p _ _ short sized := extension_lossless lossless p short sized

/-- A setup that commits to the nodes of a tree of its width. -/
structure Laid (setup : SetupObject G1 G2) (k : Nat) (w : ZMod CURVE_ORDER) (bits : Nat) :
    Prop where
  lays : Lays setup.toTables CURVE_ORDER k w
  points : 2 ^ k ≤ setup.setup0.length
  cuts : Cuts setup.width bits
  wide : 4 ≤ 2 ^ k
  few : 2 ^ k < 256 ^ 2

/-- A setup whose width cuts keys into whole chunks and fits the node format. -/
structure Ready (setup : SetupObject G1 G2) (k : Nat) (w : ZMod CURVE_ORDER) (bits : Nat) :
    Prop where
  lays : Lays setup.toTables CURVE_ORDER k w
  points : 2 ^ k ≤ setup.setup0.length
  aligned : Aligned setup.width bits
  wide : 4 ≤ 2 ^ k
  narrow : 2 ^ k ≤ 256

section Setup
variable {backend : Backend Point G1 G2 FQ12} {setup : SetupObject G1 G2} {k bits : Nat}
  {w : ZMod CURVE_ORDER}

theorem ready_laid (ready : Ready setup k w bits) : Laid setup k w bits := by
  have narrow := ready.narrow
  exact ⟨ready.lays, ready.points, ready.aligned.toCuts, ready.wide, by omega⟩

theorem ready_narrow (ready : Ready setup k w bits) : (kzgScheme backend setup).width ≤ 256 := by
  rw [kzgScheme, ready.lays.size]
  exact ready.narrow

/-- Trees of words have room in the node format all along a run. -/
theorem ready_words [NeZero (kzgScheme backend setup).width] (ready : Ready setup k w bits)
    (run : List (Word × Word)) :
    ∀ done, done <+: run → Sound (treeOf (kzgScheme backend setup).width done) := by
  have cuts : Cuts (kzgScheme backend setup).width bits := ready.aligned.toCuts
  intro done _
  exact treeOf_words cuts (ready_narrow ready) done

theorem laid_lawful (faithful : Faithful backend.format) (laid : Laid setup k w bits) :
    Lawful (kzgScheme backend setup) where
  commits values size := by
    have full : values.length = 2 ^ k := by rw [size, kzgScheme, laid.lays.size]
    exact CommitmentScheme.commitValues_ok backend.curve backend.logFloor laid.lays laid.points
      (by simp [full, laid.lays.size])
  commitsExtension stem child small := by
    have few : [(1 : Int), ofBytes (stem.map UInt8.ofNat), childValue child, 0].length ≤ 2 ^ k := by
      simpa using laid.wide
    obtain ⟨p, run⟩ := CommitmentScheme.commitValues_ok backend.curve backend.logFloor laid.lays
      laid.points few
    refine ⟨p, ?_⟩
    simp only [kzgScheme, CommitmentScheme.commitExtension, bytesOf_ok small, bind, Except.bind]
    exact run
  hash_small p := by
    have residue := faithful.hash_residue p CURVE_ORDER (by decide)
    have order : CURVE_ORDER < 256 ^ 32 := by decide
    simp only [kzgScheme, laid.lays.order]
    exact Nat.lt_trans residue order
  array_lossless flag p children kind size readable := by
    have width : children.length = 2 ^ k := size.trans laid.lays.size
    have few := laid.few
    exact faithful.array_lossless flag p children kind (by omega) readable
  extension_lossless := faithful.extension_lossless

theorem ready_lawful (faithful : Faithful backend.format) (ready : Ready setup k w bits) :
    Lawful (kzgScheme backend setup) := laid_lawful faithful (ready_laid ready)

end Setup

/- The setups of the two widths. -/

theorem supported_ready {width : Nat} (supported : width = 16 ∨ width = 256)
    (curve : Curve Point G1 G2 FQ12) (secret : Nat) :
    ∃ setup k w bits, verkleKzgSetup curve secret width = .ok setup ∧
      Standard curve secret setup k w ∧ Ready setup k w bits := by
  have known : ∃ root, rootOfUnityCandidates.lookup width = some root := by
    rcases supported with rfl | rfl
    · exact candidate_hex
    · exact candidate_byte
  obtain ⟨root, found⟩ := known
  obtain ⟨setup, k, made, size, standard⟩ := verkleKzgSetup_standard curve secret found
  have points : 2 ^ k ≤ setup.setup0.length := by
    rw [standard.setup0, List.length_map, List.length_range]
    omega
  have same : setup.width = width := standard.tables.size.trans size.symm
  rcases supported with rfl | rfl
  · exact ⟨setup, k, root, 4, made, standard, standard.tables, points, same ▸ aligned_hex, by omega,
      by omega⟩
  · exact ⟨setup, k, root, 8, made, standard, standard.tables, points, same ▸ aligned_byte,
      by omega, by omega⟩

theorem setup_ready {width : Nat} (supported : width = 16 ∨ width = 256)
    {curve : Curve Point G1 G2 FQ12} {secret : Nat} {setup : SetupObject G1 G2}
    (made : verkleKzgSetup curve secret width = .ok setup) :
    ∃ k w bits, Standard curve secret setup k w ∧ Ready setup k w bits := by
  obtain ⟨setup', k, w, bits, made', standard, ready⟩ := supported_ready supported curve secret
  rw [made] at made'
  cases made'
  exact ⟨k, w, bits, standard, ready⟩

theorem width_neZero (backend : Backend Point G1 G2 FQ12) {setup : SetupObject G1 G2} {k bits : Nat}
    {w : ZMod CURVE_ORDER} (ready : Ready setup k w bits) :
    NeZero (kzgScheme backend setup).width :=
  ⟨Nat.ne_of_gt (width_positive ready.aligned.toCuts)⟩

/- The setup of width 16 for a secret, and what one insert takes from outside. -/
section Sample

def sampleKey : Word := ⟨List.replicate 32 0x12, rfl⟩

def sampleValue : Word := ⟨toBytes 32 7, toBytes_length _ _⟩

def suffixPoint : Point2D := ⟨fq
    3104047573157688434492185539282391669263443762936748450289189652790895892811390036192077048630498019555537454076076, fq
    3972031947979763071222711477262505386130381967188677501699473461599418557846944870429280872370082095472246477028183⟩

def extensionPoint : Point2D := ⟨fq
    2742258287193926129434729800262489483532027334929055810487986741115924697735616613821706438593189210008249735606283, fq
    2245734577215564860121719087291817092049991357219621089372853395275842221728929093163439883274984602465102508772134⟩

def rootPoint : Point2D := ⟨fq
    2032023061627127432693914234250508270951571658441968091434116224630603838348072066991850851779935133062171221673768, fq
    3026699930250732505831654437097446934546634328218884534841404786122358711652065472755445379184050716398664368321850⟩

def suffixHash : Bytes :=
  toBytes 32 0xb0d1c533c28a4b5928ade0f96b34e6f2d28d06eac00f985d36d794d09471589b

def extensionHash : Bytes :=
  toBytes 32 0xd79e836f46d4109c89b6bb9bbf615a81c842f1fd72c65c8303e0426051358d4e

def rootHash : Bytes :=
  toBytes 32 0x42dcdd9621b47301032cae73ed152f5b0b77ab41c3b46e5ff6cc7f6171470736

def samplePoints : List (Nat × Point2D) := [
  (47121750021160791103574586737997006929842784224785022575719249509010967448792, suffixPoint),
  (15570533687868417955282967039093232447057516147964495436069458602127230730379, extensionPoint),
  (7883109292897318478983251090818107117661467830319392491464180760771745744765, rootPoint)]

/-- The groups by logarithms. Points not in the list get coordinates of no point. -/
def sampleCurve : Curve Point2D Nat Nat Nat where
  generator := 1
  Z1 := 0
  add p q := (p + q) % CURVE_ORDER
  multiply p n := p * n % CURVE_ORDER
  normalize p := (samplePoints.lookup (p % CURVE_ORDER)).getD ⟨fq (p % CURVE_ORDER), fq 0⟩
  lift pt := match samplePoints.find? fun e => e.2 = pt with
    | some e => e.1
    | none => pt.x
  generator₂ := 1
  add₂ p q := (p + q) % CURVE_ORDER
  multiply₂ p n := p * n % CURVE_ORDER
  neg₂ p := (CURVE_ORDER - 1) * p % CURVE_ORDER
  one := 0
  mul x y := (x + y) % CURVE_ORDER
  pairing q p := q * p % CURVE_ORDER
  finalExponentiate x := x % CURVE_ORDER

/-- The groups by logarithms, with other points. -/
def tabledCurve (points : List (Nat × Point2D)) : Curve Point2D Nat Nat Nat :=
  { sampleCurve with
    normalize := fun p => (points.lookup (p % CURVE_ORDER)).getD ⟨fq (p % CURVE_ORDER), fq 0⟩
    lift := fun pt => match points.find? fun e => e.2 = pt with
      | some e => e.1
      | none => pt.x }

def sampleSha256 (text : Bytes) : Bytes :=
  ([(HashScheme.pointText suffixPoint, suffixHash),
    (HashScheme.pointText extensionPoint, extensionHash),
    (HashScheme.pointText rootPoint, rootHash)].lookup text).getD (List.replicate 32 0)

/-- `int(math.log(n))` for the numbers that a residue of 255 bits leads to. -/
def sampleLogFloor (n : Nat) : Nat := if n < 3 then 0 else if n < 8 then 1 else if n < 21 then 2
  else if n < 55 then 3 else if n < 149 then 4 else if n < 404 then 5 else 6

/-- The nodes of the insert as bytes, and compressed. -/
def sampleStreams : List (Bytes × Bytes) := [
  (2 :: (commitmentBytes suffixPoint ++ ([0, 16, 4, 0] ++ sampleValue.bytes)),
    toBytes 40 0x785e633210d1baf577c98794e56592addae7bb32f674eafe3c34e7f9994235dbe9bb82dfedda1462 ++
    toBytes 40 0xb649e5d66bb5b873816fdf5e9d3f618d81e4b96e87125de7e3628687f93ad5666e5cbbcaa8b84ee9 ++
    toBytes 39 0x41713f4336fb25ff6b87544e747ae5c86e9cc679eac7eca4e2dfe10c022c0c04003b00e1703205),
  (1 :: (commitmentBytes extensionPoint ++ (62 :: ((List.replicate 31 [2, 1]).flatten ++
      toBytes 32 (ofBytes suffixHash % CURVE_ORDER)))),
    toBytes 40 0x785e633410bc2835e1daf78c54cdf6b8676dc19cac1759d6a6eeafb9173b55cbecdcba99755e0b26 ++
    toBytes 40 0xac721795f2ba9aa9ad2a79e04601b701df7487c373762a7e485db0f1bc98d2b305ceacc191c7f6e5 ++
    toBytes 40 0x07ff7a9f2855539f5d6ff3defbbdaae606ceb34ad642c656a7d5ec98182981364f641fcc78734ee0 ++
    toBytes 30 0x6b09c7c7c4c97c6febce273d3f20681367767dcac5298511b30025a03d95),
  (0 :: (commitmentBytes rootPoint ++ ([0, 16, 2, 0] ++
      toBytes 32 (ofBytes extensionHash % CURVE_ORDER))),
    toBytes 40 0x785e01870078ff00300d33cb42504e52ff0f0f06025016192c5a2217aa7b58f3b7b87ac090a78ac5 ++
    toBytes 40 0x88ec98b934ca3f7a3a404ed3a60ad1c7283013aa34acd1cd0d6d39b09513075344e7ea60e6b97a25 ++
    toBytes 40 0xe009463285f6402ff284d6a79280c8c0bfed1fe53d203ac4f53a0010020063b0dc1c1d369354567c ++
    toBytes 26 0xe393b5bf827c74854dfa72c8008403e0426151358d4d772a3c81)]

def sampleZlib : Zlib := tabledZlib sampleStreams

theorem sampleZlib_lossless : sampleZlib.Lossless := tabledZlib_lossless (by decide +kernel)

def sampleSetup : SetupObject Nat Nat :=
  (verkleKzgSetup sampleCurve 5 16).toOption.getD ⟨⟨0, 0, 0, [], [], []⟩, [], [], [], []⟩

theorem sampleSetup_made : verkleKzgSetup sampleCurve 5 16 = .ok sampleSetup := by
  obtain ⟨setup, _, _, _, made, _⟩ := supported_ready (Or.inl rfl) sampleCurve 5
  rw [sampleSetup, made]
  rfl

/- Two keys that differ in their first byte have the same value, so that below
   the root their nodes are the same. -/

def forkKey : Word := ⟨0x22 :: List.replicate 31 0x12, rfl⟩

def forkRun : List (Word × Word) := [(sampleKey, sampleValue), (forkKey, sampleValue)]

def forkPoint : Point2D := ⟨fq
    3062691089644182528708498999384261807126074054473086495673024958771822343792272628542379968538643008401821577115849, fq
    274790267021122998299686903162456879356700149608102071074575129452394637557147980359977462007819382296738355904907⟩

/-- The root above the second key alone. -/
def swapPoint : Point2D := ⟨fq
    2417633861518502209430521953322655203051089874680721229653740251426348518790179220459139055735856245923318518205496, fq
    2305627654614463815601033011308877029486292605985228072137593590436668071519133017663870736024114327145267855079150⟩

def forkPoints : List (Nat × Point2D) :=
  (51442306750781819384466136128509017772789963547297436083077115660125913440402, forkPoint) ::
    (43559197457884500905482885037690910655128495716978043591612934899354167695637, swapPoint) ::
      samplePoints

def forkCurve : Curve Point2D Nat Nat Nat := tabledCurve forkPoints

def pointDigests : List (Bytes × Bytes) :=
  [(HashScheme.pointText suffixPoint, suffixHash),
    (HashScheme.pointText extensionPoint, extensionHash),
    (HashScheme.pointText rootPoint, rootHash),
    (HashScheme.pointText forkPoint,
      toBytes 32 0xea21cad6855f439b651b7558724400141203b2762bb6397eb167c67b08ad3f98),
    (HashScheme.pointText swapPoint,
      toBytes 32 0x68d73ad4f56785b22214292b91740b19151655bedbf6ae1dd4b125a8084ea407)]

def pointSha256 (text : Bytes) : Bytes := (pointDigests.lookup text).getD (List.replicate 32 0)

def forkStreams : List (Bytes × Bytes) :=
  (0 :: (commitmentBytes forkPoint ++ ([0, 16, 6, 0] ++
      (toBytes 32 (ofBytes extensionHash % CURVE_ORDER) ++
        toBytes 32 (ofBytes extensionHash % CURVE_ORDER)))),
    toBytes 40 0x785e6330107e2638e1d34de373db435adf38c41f9cf649be3f7f4b54c12caf0377fdea627f4c375f ++
    toBytes 40 0x7d64fa86e88fb713af4e5833e9ef8f93068c2779a64fab2b65f1105bbed5ecda5489cb26fe531bb7 ++
    toBytes 40 0x45c756f2976f575278f69129c46eef41b7069fb2f99f8ffd3cd5d8cd20c0c690bce18e8cacd9e490 ++
    toBytes 32 0xb09ac793b7ee6faa2969f5fd557482a185f9815362a069af2f217900b0705188) ::
  (0 :: (commitmentBytes swapPoint ++ ([0, 16, 4, 0] ++
      toBytes 32 (ofBytes extensionHash % CURVE_ORDER))),
    toBytes 40 0x785e01870078ff00300fb52ac9fd25891c335b01f4bb6d1d9512831e5cf6da71227d97eff2b45719 ++
    toBytes 40 0x7b0a3a0351fd8d19e4b07afcaebd034c38300efadefef5aa59c7bee20f3e2b5ad507f90343cb3807 ++
    toBytes 40 0x7f7f0c05a064fa9da125ab4d6f30a300b9bbb077d3c1c1fbb6ee0010040063b0dc1c1d369354567c ++
    toBytes 26 0xe393b5bf827c74854dfa72c8008403e0426151358d4d84083ee3) :: sampleStreams

def forkZlib : Zlib := tabledZlib forkStreams

theorem forkZlib_lossless : forkZlib.Lossless := tabledZlib_lossless (by decide +kernel)

def forkSetup : SetupObject Nat Nat :=
  (verkleKzgSetup forkCurve 5 16).toOption.getD ⟨⟨0, 0, 0, [], [], []⟩, [], [], [], []⟩

theorem forkSetup_made : verkleKzgSetup forkCurve 5 16 = .ok forkSetup := by
  obtain ⟨setup, _, _, _, made, _⟩ := supported_ready (Or.inl rfl) forkCurve 5
  rw [forkSetup, made]
  rfl

/- Linear combinations of numbers modulo the order are one sum. Runs on samples are
   evaluated so. -/

/-- The group of a sample: numbers modulo the order. -/
structure Residual (curve : Curve Point2D Nat Nat Nat) : Prop where
  add : curve.add = fun p q => (p + q) % CURVE_ORDER
  zero : curve.Z1 = 0
  normalize : ∀ p, curve.normalize (p % CURVE_ORDER) = curve.normalize p

theorem sampleCurve_residual : Residual sampleCurve := ⟨rfl, rfl, fun p => by simp [sampleCurve]⟩

theorem tabledCurve_residual (points : List (Nat × Point2D)) : Residual (tabledCurve points) :=
  ⟨rfl, rfl, fun p => by simp [tabledCurve]⟩

theorem forkCurve_residual : Residual forkCurve := tabledCurve_residual forkPoints

section Sums
variable (curve : Curve Point2D Nat Nat Nat) (logFloor : Nat → Nat) (setup : SetupObject Nat Nat)

def sumValues (values : List Int) : Except PyError Point2D := do
  let coeffs ← Fft.fft values setup.modulus setup.rootOfUnity true
  let points := setup.setup0.take coeffs.length
  if coeffs ≠ [] ∧ points.length = coeffs.length then
    .ok (curve.normalize ((List.zipWith (· * ·) (coeffs.map Int.toNat) points).sum % CURVE_ORDER))
  else do
    let sum ← MultiCombs.lincomb curve.add curve.Z1 logFloor points (coeffs.map Int.toNat)
    .ok (curve.normalize sum)

def sumScheme (sha256 : Bytes → Bytes) (zlib : Zlib) : Scheme Point2D := {
  plainScheme curve logFloor sha256 zlib setup with
  commit := fun values => sumValues curve logFloor setup (values.map Int.ofNat ++
    List.replicate (setup.width - (values.map Int.ofNat).length) 0)
  commitExtension := fun stem child => do
    let stem ← bytesOf stem
    sumValues curve logFloor setup [1, ofBytes stem, childValue child, 0] }

theorem weightedSum_residues (factors points : List Nat) :
    MultiCombs.weightedSum (fun p : Nat => (p : ZMod CURVE_ORDER)) factors points =
      ((List.zipWith (· * ·) factors points).sum : Nat) := by
  induction factors generalizing points with
  | nil => simp [MultiCombs.weightedSum]
  | cons f factors ih =>
    cases points with
    | nil => simp [MultiCombs.weightedSum]
    | cons p points =>
      have rest := ih points
      simp only [MultiCombs.weightedSum, List.zipWith_cons_cons, List.sum_cons, Nat.cast_add,
        Nat.cast_mul, nsmul_eq_mul] at rest ⊢
      rw [rest]

variable {curve} (residual : Residual curve)
include residual

theorem commitValues_sum :
    CommitmentScheme.commitValues curve logFloor setup = sumValues curve logFloor setup := by
  funext values
  refine bind_congr fun coeffs => ?_
  dsimp only
  split
  · rename_i whole
    have plus (p q : Nat) : ((curve.add p q : Nat) : ZMod CURVE_ORDER) = p + q := by
      simp [residual.add]
    obtain ⟨o, run, value⟩ := MultiCombs.lincomb_value curve.add curve.Z1 plus
      (by simp [residual.zero]) logFloor (by simpa using whole.1)
      (whole.2.trans (List.length_map _).symm)
    rw [weightedSum_residues, ZMod.natCast_eq_natCast_iff'] at value
    rw [run, ← value, residual.normalize]
    rfl
  · rfl

theorem plainScheme_sum (sha256 : Bytes → Bytes) (zlib : Zlib) :
    plainScheme curve logFloor sha256 zlib setup = sumScheme curve logFloor setup sha256 zlib := by
  have same := commitValues_sum logFloor setup residual
  unfold sumScheme
  rw [← same]
  rfl

end Sums

end Sample

/- Whole runs. -/
section Runs
variable {width : Nat} (supported : width = 16 ∨ width = 256) (curve : Curve Point2D G1 G2 FQ12)
  (logFloor : Nat → Nat) (sha256 : Bytes → Bytes) {zlib : Zlib} (lossless : zlib.Lossless)
  {secret : Nat} {setup : SetupObject G1 G2}
  (made : verkleKzgSetup curve secret width = .ok setup)
include supported lossless made

omit supported lossless made in
theorem forkRuns_consistent :
    (insertRun (plainScheme forkCurve sampleLogFloor pointSha256 forkZlib forkSetup)
      forkRun).2.disk.db.Consistent ∧
    (insertRun (plainScheme forkCurve sampleLogFloor pointSha256 forkZlib forkSetup)
      forkRun.reverse).2.disk.db.Consistent := by
  rw [plainScheme_sum _ _ forkCurve_residual]
  constructor
  · decide +kernel
  · decide +kernel

omit supported lossless made in
theorem forkRun_swapped (key : Word) : lastInserted forkRun key = lastInserted forkRun.reverse key := by
  have apart : (sampleKey == forkKey) = false := by decide
  by_cases first : sampleKey == key <;> by_cases second : forkKey == key <;>
    simp [lastInserted, forkRun, first, second]

omit supported lossless made in
theorem sampleRuns_consistent :
    (insertRun (plainScheme sampleCurve sampleLogFloor sampleSha256 sampleZlib sampleSetup)
      ([(sampleKey, sampleValue)] ++ [(sampleKey, sampleValue)])).2.disk.db.Consistent := by
  rw [plainScheme_sum _ _ sampleCurve_residual]
  decide +kernel

omit supported lossless made in
theorem sampleRun_consistent :
    (insertRun (plainScheme sampleCurve sampleLogFloor sampleSha256 sampleZlib sampleSetup)
      [(sampleKey, sampleValue)]).2.disk.db.Consistent :=
  consistent_earlier (insertRun_earlier
    (plainScheme sampleCurve sampleLogFloor sampleSha256 sampleZlib sampleSetup)
    [(sampleKey, sampleValue)] [(sampleKey, sampleValue)]) sampleRuns_consistent

/-- A run of inserts returns normally, and the tree answers with the last value
    of a key, live and reopened. -/
theorem verkle_get_last_inserted (run : List (Word × Word))
    (valid : (insertRun (plainScheme curve logFloor sha256 zlib setup) run).2.disk.db.Consistent) :
    (insertRun (plainScheme curve logFloor sha256 zlib setup) run).1 = .ok () ∧
    ∀ key : Word,
      VerkleTrees.get (plainScheme curve logFloor sha256 zlib setup)
        (insertRun (plainScheme curve logFloor sha256 zlib setup) run).2 key.bytes =
          .ok ((lastInserted run key).map fun v => ofBytes v.bytes) ∧
      ∃ reopened, openTree (plainScheme curve logFloor sha256 zlib setup)
          (insertRun (plainScheme curve logFloor sha256 zlib setup) run).2.disk = .ok reopened ∧
        VerkleTrees.get (plainScheme curve logFloor sha256 zlib setup) reopened key.bytes =
          .ok ((lastInserted run key).map fun v => ofBytes v.bytes) := by
  obtain ⟨k, w, bits, _, ready⟩ := setup_ready supported made
  have positive := width_neZero (plainBackend curve logFloor sha256 zlib) ready
  exact run_get (ready_lawful (plainFormat_faithful sha256 lossless) ready) ready.aligned run
    (ready_words ready run) valid

omit supported lossless made in
theorem verkle_get_last_inserted_sample :
    (insertRun (plainScheme forkCurve sampleLogFloor pointSha256 forkZlib forkSetup) forkRun).1 =
      .ok () ∧
    VerkleTrees.get (plainScheme forkCurve sampleLogFloor pointSha256 forkZlib forkSetup)
      (insertRun (plainScheme forkCurve sampleLogFloor pointSha256 forkZlib forkSetup) forkRun).2
        forkKey.bytes = .ok (some 7) ∧
    VerkleTrees.get (plainScheme forkCurve sampleLogFloor pointSha256 forkZlib forkSetup)
      (insertRun (plainScheme forkCurve sampleLogFloor pointSha256 forkZlib forkSetup) forkRun).2
        sampleValue.bytes = .ok none := by
  obtain ⟨fine, answers⟩ := verkle_get_last_inserted (Or.inl rfl) forkCurve sampleLogFloor
    pointSha256 forkZlib_lossless forkSetup_made forkRun forkRuns_consistent.1
  have present : ((lastInserted forkRun forkKey).map fun v => ofBytes v.bytes) = some 7 := by decide
  have absent : ((lastInserted forkRun sampleValue).map fun v => ofBytes v.bytes) = none := by decide
  rw [← present, ← absent]
  exact ⟨fine, (answers forkKey).1, (answers sampleValue).1⟩

/-- The root depends on the final map of a run only. -/
theorem verkle_root_canonical (run run' : List (Word × Word))
    (valid : (insertRun (plainScheme curve logFloor sha256 zlib setup) run).2.disk.db.Consistent)
    (valid' : (insertRun (plainScheme curve logFloor sha256 zlib setup) run').2.disk.db.Consistent)
    (same : ∀ key, lastInserted run key = lastInserted run' key) :
    rootCommitment (insertRun (plainScheme curve logFloor sha256 zlib setup) run).2 =
      rootCommitment (insertRun (plainScheme curve logFloor sha256 zlib setup) run').2 ∧
    (insertRun (plainScheme curve logFloor sha256 zlib setup) run).2.rootRef =
      (insertRun (plainScheme curve logFloor sha256 zlib setup) run').2.rootRef := by
  obtain ⟨k, w, bits, _, ready⟩ := setup_ready supported made
  have positive := width_neZero (plainBackend curve logFloor sha256 zlib) ready
  exact run_root_canonical (ready_lawful (plainFormat_faithful sha256 lossless) ready)
    ready.aligned (ready_words ready run) (ready_words ready run') valid valid' same

omit supported lossless made in
theorem verkle_root_canonical_sample :
    (insertRun (plainScheme forkCurve sampleLogFloor pointSha256 forkZlib forkSetup)
      forkRun).2.rootRef =
    (insertRun (plainScheme forkCurve sampleLogFloor pointSha256 forkZlib forkSetup)
      forkRun.reverse).2.rootRef := by
  exact (verkle_root_canonical (Or.inl rfl) forkCurve sampleLogFloor pointSha256 forkZlib_lossless
    forkSetup_made forkRun forkRun.reverse forkRuns_consistent.1 forkRuns_consistent.2
    forkRun_swapped).2

end Runs

end KzgScheme
