import StatelessEthereum.VerkleChecks

/- Commitments as polynomials: all that a sender of group elements can know of
   them in terms of the setup. An equation of the verifier that holds for every
   secret is then one of polynomials. -/
namespace PolynomialCurve
open Polynomial PythonError BigEndian EvaluationDomain Fft PolyUtils KzgSetup KzgScheme
open IdealCurve VerkleSerialization

/-- A polynomial that a vector of the domain can be committed to. -/
structure LowPolynomial (width : Nat) where
  poly : (ZMod CURVE_ORDER)[X]
  low : poly.degree < width

noncomputable instance : DecidableEq (ZMod CURVE_ORDER)[X] := Classical.decEq _

theorem low_zero (width : Nat) : (0 : (ZMod CURVE_ORDER)[X]).degree < width := by
  rw [degree_zero]
  exact WithBot.bot_lt_coe _

noncomputable def polynomialCurve (width : Nat) : Curve (LowPolynomial width)
    (ZMod CURVE_ORDER)[X] (ZMod CURVE_ORDER)[X] (ZMod CURVE_ORDER)[X] where
  generator := 1
  Z1 := 0
  add p q := p + q
  multiply p n := n * p
  normalize p := if low : p.degree < width then ⟨p, low⟩ else ⟨0, low_zero width⟩
  lift p := p.poly
  generator₂ := 1
  add₂ p q := p + q
  multiply₂ p n := n * p
  neg₂ p := -p
  one := 0
  mul x y := x + y
  pairing q p := q * p
  finalExponentiate x := x

noncomputable def ofCoefficients (l : List Int) : (ZMod CURVE_ORDER)[X] :=
  ∑ j ∈ Finset.range l.length, C (residues l j) * X ^ j

/-- The points of a setup whose secret is not known. -/
noncomputable def polynomialSetup (t : Tables) :
    SetupObject (ZMod CURVE_ORDER)[X] (ZMod CURVE_ORDER)[X] :=
  { t with
    setup0 := (List.range (t.width + 1)).map fun i => X ^ i
    setup1 := (List.range (t.width + 1)).map fun i => X ^ i
    setup2 := t.lagrangePolys.map ofCoefficients
    setup3 := t.lagrangePolys.map ofCoefficients }

theorem polynomialSetup_tables (t : Tables) : (polynomialSetup t).toTables = t := rfl

def tablesOf (width : Nat) : Tables :=
  ((rootOfUnityCandidates.lookup width).bind fun root =>
    (makeTables width CURVE_ORDER root).toOption).getD ⟨0, 0, 0, [], [], []⟩

theorem tablesOf_lays {width : Nat} (supported : width = 16 ∨ width = 256) :
    ∃ k w, width = 2 ^ k ∧ Lays (tablesOf width) CURVE_ORDER k w ∧
      w = ((tablesOf width).rootOfUnity : ZMod CURVE_ORDER) := by
  have known : ∃ root, rootOfUnityCandidates.lookup width = some root := by
    rcases supported with rfl | rfl
    · exact candidate_hex
    · exact candidate_byte
  obtain ⟨root, found⟩ := known
  obtain ⟨small, _, _, k, power, primitive⟩ := candidate_primitive found
  obtain ⟨t, run, lays⟩ := makeTables_lays small primitive
  rw [← power] at run
  have same : tablesOf width = t := by rw [tablesOf, found, Option.bind_some, run]; rfl
  exact ⟨k, root, power, same ▸ lays, by rw [same, lays.root]⟩

def polynomialLogs (width : Nat) : Logarithms (polynomialCurve width) (ZMod CURVE_ORDER)[X] where
  log p := p
  log₂ p := p
  logT x := x
  log_generator := rfl
  log_Z1 := rfl
  log_add _ _ := rfl
  log_multiply _ _ := rfl
  log₂_generator := rfl
  log₂_add _ _ := rfl
  log₂_neg _ := rfl
  log₂_multiply _ _ := rfl
  logT_one := rfl
  logT_mul _ _ := rfl
  logT_pairing _ _ := rfl
  final _ := Iff.rfl

theorem ofCoefficients_eq {l : List Int} {p : (ZMod CURVE_ORDER)[X]} {n : Nat} (some : 0 < n)
    (size : l.length = n) (coefficients : ∀ j < n, residues l j = p.coeff j) (low : p.degree < n) :
    ofCoefficients l = p := by
  have listed := aeval_coefficients some low (X : (ZMod CURVE_ORDER)[X])
  rw [aeval_X_left_apply] at listed
  rw [ofCoefficients, listed, size]
  apply Finset.sum_congr rfl
  intro j member
  rw [coefficients j (Finset.mem_range.mp member)]
  rfl

theorem polynomialSetup_logs (width : Nat) {t : Tables} {k : Nat} {w : ZMod CURVE_ORDER}
    (lays : Lays t CURVE_ORDER k w) :
    SetupLogs (polynomialLogs width) (polynomialSetup t) k w X := by
  obtain ⟨count, rows⟩ := lays.lagranges
  have positive := Nat.two_pow_pos k
  have powers : (List.range (t.width + 1)).map (fun i => (X : (ZMod CURVE_ORDER)[X]) ^ i) =
      (List.range (2 ^ k + 1)).map fun i => X ^ i := by rw [lays.size]
  have listed : t.lagrangePolys.map ofCoefficients = (List.range (2 ^ k)).map fun i =>
      aeval X (interp w (2 ^ k) (Pi.single i 1)) := by
    apply List.ext_getElem (by simp [count])
    intro i inside _
    have within : i < 2 ^ k := by simpa [count] using inside
    obtain ⟨size, coefficients⟩ := rows i within
    have listed : i < t.lagrangePolys.length := by omega
    have row : t.lagrangePolys.getD i [] = t.lagrangePolys[i] := by
      rw [List.getD_eq_getElem?_getD, List.getElem?_eq_getElem listed, Option.getD_some]
    rw [row] at size coefficients
    rw [List.getElem_map, List.getElem_map, List.getElem_range, aeval_X_left_apply]
    exact ofCoefficients_eq positive size coefficients (interp_degree lays.primitive _)
  constructor
  · exact lays
  · rw [← powers]; exact List.map_id _
  · rw [← powers]; exact List.map_id _
  · rw [← listed]; exact List.map_id _
  · rw [← listed]; exact List.map_id _

theorem committed_poly {width k : Nat} (size : width = 2 ^ k) {w : ZMod CURVE_ORDER}
    {setup : SetupObject (ZMod CURVE_ORDER)[X] (ZMod CURVE_ORDER)[X]}
    (ideal : SetupLogs (polynomialLogs width) setup k w X) (logFloor : Nat → Nat)
    {values : List Int} (few : values.length ≤ 2 ^ k) {p : LowPolynomial width}
    (run : CommitmentScheme.commitValues (polynomialCurve width) logFloor setup values = .ok p) :
    p.poly = interp w (2 ^ k) (residues values) := by
  obtain ⟨o, run', log⟩ := commitSum_log ideal logFloor few
  have whole : o = interp w (2 ^ k) (residues values) := by
    rw [aeval_X_left_apply] at log
    exact log
  have low : o.degree < (width : WithBot Nat) := by
    rw [whole]
    exact lt_of_lt_of_eq (interp_degree ideal.lays.primitive _) (congrArg Nat.cast size.symm)
  rw [run'] at run
  cases run
  simp only [polynomialCurve, low, ↓reduceDIte]
  exact whole

/- The backend. -/

structure Codec (Point : Type) where
  rootBytes : Point → Bytes
  serializeArrayNode : UInt8 → Point → List (Option Bytes) → Except PyError Bytes
  serializeExtensionNode : Point → Bytes → Option Bytes → Except PyError Bytes
  deserializeAnyNode : Bytes → Except PyError (AnyNode Point)

def hashedFormat {Point : Type} (hash : Point → Nat) (codec : Codec Point) : PointFormat Point where
  hashPointToField p modulus := hash p % modulus
  generateRootBytes p := .ok (codec.rootBytes p)
  serializeArrayNode := codec.serializeArrayNode
  serializeExtensionNode := codec.serializeExtensionNode
  deserializeAnyNode := codec.deserializeAnyNode

/- A codec that reads back whatever it writes. -/

theorem countable_bytes (α : Type) [Countable α] : ∃ write : α → Bytes, Function.Injective write := by
  obtain ⟨number, distinct⟩ := exists_injective_nat α
  refine ⟨fun a => List.replicate (number a) 0, fun a b same => distinct ?_⟩
  simpa using congrArg List.length same

instance (width : Nat) : Countable (LowPolynomial width) := by
  have coefficients : Function.Injective fun (p : LowPolynomial width) (i : Fin width) =>
      p.poly.coeff i := by
    rintro ⟨p, low⟩ ⟨q, low'⟩ same
    have equal : p = q := by
      ext i
      by_cases inside : i < width
      · exact congrFun same ⟨i, inside⟩
      · have beyond : (width : WithBot Nat) ≤ i := by exact_mod_cast Nat.not_lt.mp inside
        rw [coeff_eq_zero_of_degree_lt (low.trans_le beyond),
          coeff_eq_zero_of_degree_lt (low'.trans_le beyond)]
    cases equal
    rfl
  exact coefficients.countable

instance {Point : Type} [Countable Point] : Countable (AnyNode Point) := by
  have parts : Function.Injective fun node : AnyNode Point => match node with
      | .array flag p children => (Sum.inl (flag.toNat, p, children.map (Option.map (List.map UInt8.toNat))) :
          (Nat × Point × List (Option (List Nat))) ⊕ (Point × List Nat × List Nat))
      | .extension p stem h => Sum.inr (p, stem.map UInt8.toNat, h.map UInt8.toNat) := by
    have bytes : Function.Injective (List.map UInt8.toNat) :=
      List.map_injective_iff.mpr fun _ _ => UInt8.toNat_inj.mp
    have children : Function.Injective (List.map (Option.map (List.map UInt8.toNat))) :=
      List.map_injective_iff.mpr (Option.map_injective bytes)
    intro a b same
    cases a <;> cases b <;> simp only [Sum.inl.injEq, Sum.inr.injEq, Prod.mk.injEq, reduceCtorEq]
      at same
    · obtain ⟨flags, rfl, hashes⟩ := same
      rw [UInt8.toNat_inj.mp flags, children hashes]
    · obtain ⟨rfl, stems, hashes⟩ := same
      rw [bytes stems, bytes hashes]
  exact parts.countable

section Codec
variable (Point : Type) [Countable Point]

noncomputable def writeNode : AnyNode Point → Bytes := (countable_bytes (AnyNode Point)).choose

theorem writeNode_injective : Function.Injective (writeNode Point) :=
  (countable_bytes (AnyNode Point)).choose_spec

open Classical in
noncomputable def losslessCodec : Codec Point where
  rootBytes := (countable_bytes Point).choose
  serializeArrayNode flag p children := .ok (writeNode Point (.array flag p children))
  serializeExtensionNode p stem childHash := match childHash with
    | none => .error (.typeError "")
    | some h => .ok (writeNode Point (.extension p stem h))
  deserializeAnyNode data :=
    if known : ∃ node, writeNode Point node = data then .ok known.choose else .error .decodingError

theorem losslessCodec_reads (node : AnyNode Point) :
    (losslessCodec Point).deserializeAnyNode (writeNode Point node) = .ok node := by
  have known : ∃ node', writeNode Point node' = writeNode Point node := ⟨node, rfl⟩
  simp only [losslessCodec, known, ↓reduceDIte]
  rw [writeNode_injective Point known.choose_spec]

theorem losslessCodec_faithful (hash : Point → Nat) :
    Faithful (hashedFormat hash (losslessCodec Point)) where
  hash_residue _ _ positive := Nat.mod_lt _ positive
  root_bytes _ := ⟨_, rfl⟩
  array_lossless _ _ _ _ _ _ := ⟨_, rfl, losslessCodec_reads Point _⟩
  extension_lossless _ _ _ _ _ := ⟨_, rfl, losslessCodec_reads Point _⟩

end Codec

noncomputable def polynomialBackend (width : Nat) (logFloor : Nat → Nat) (sha256 : Bytes → Bytes)
    (hash : LowPolynomial width → Nat) (codec : Codec (LowPolynomial width)) :
    Backend (LowPolynomial width) (ZMod CURVE_ORDER)[X] (ZMod CURVE_ORDER)[X] (ZMod CURVE_ORDER)[X] :=
  ⟨polynomialCurve width, logFloor, sha256, hashedFormat hash codec⟩

def rootOf (width : Nat) : ZMod CURVE_ORDER := (tablesOf width).rootOfUnity

/-- Tables of the constructor and enough points commit to nodes. -/
theorem tables_ready {G1 G2 : Type} {width : Nat} (supported : width = 16 ∨ width = 256)
    {setup : SetupObject G1 G2} (tables : setup.toTables = tablesOf width)
    (points : width ≤ setup.setup0.length) :
    ∃ k bits, width = 2 ^ k ∧ setup.width = width ∧ Ready setup k (rootOf width) bits := by
  obtain ⟨k, w, power, lays, root⟩ := tablesOf_lays supported
  subst root
  have laid : Lays setup.toTables CURVE_ORDER k (rootOf width) := tables ▸ lays
  have size : setup.width = width := laid.size.trans power.symm
  have bits : ∃ bits, VerkleKey.Aligned width bits ∧ 4 ≤ width ∧ width ≤ 256 := by
    rcases supported with rfl | rfl
    · exact ⟨4, VerkleKey.aligned_hex, by decide, by decide⟩
    · exact ⟨8, VerkleKey.aligned_byte, by decide, by decide⟩
  obtain ⟨bits, aligned, wide, narrow⟩ := bits
  exact ⟨k, bits, power, size, laid, by omega, by rwa [size], by omega, by omega⟩

theorem polynomial_ready {width : Nat} (supported : width = 16 ∨ width = 256) :
    ∃ k bits, width = 2 ^ k ∧ Ready (polynomialSetup (tablesOf width)) k (rootOf width) bits ∧
      SetupLogs (polynomialLogs width) (polynomialSetup (tablesOf width)) k (rootOf width) X := by
  obtain ⟨k, w, power, lays, _⟩ := tablesOf_lays supported
  have points : width ≤ (polynomialSetup (tablesOf width)).setup0.length := by
    have size := lays.size
    simp [polynomialSetup]
    omega
  obtain ⟨k', bits, power', _, ready⟩ :=
    tables_ready supported (polynomialSetup_tables (tablesOf width)) points
  exact ⟨k', bits, power', ready, polynomialSetup_logs width ready.lays⟩

instance byte_neZero {Point G : Type} (backend : Backend Point (ZMod CURVE_ORDER)[X]
    (ZMod CURVE_ORDER)[X] G) : NeZero (kzgScheme backend (polynomialSetup (tablesOf 256))).width := by
  have supported : 256 = 16 ∨ 256 = 256 := Or.inr rfl
  obtain ⟨k, bits, _, ready, _⟩ := polynomial_ready supported
  exact width_neZero backend ready

end PolynomialCurve
