import StatelessEthereum.PolynomialCurve
import StatelessEthereum.VerkleBinding

/- What a node of the Verkle tree is referred to by: the hash of a commitment to
   residues. The type of an array, an absent entry and the length of a stem are
   not among them. -/
namespace VerkleReferences
open Polynomial PythonError BigEndian EvaluationDomain Fft KzgSetup KzgScheme CommitmentScheme
open IdealCurve PolynomialCurve
open VerkleTrees hiding insert get
open VerkleStorage
variable {Point G1 G2 FQ12 : Type}

inductive StoredNode (width : Nat) where
  | internal (children : Fin width → Option Word)
  | suffix (children : Fin width → Option Word)
  | extension (stem : List (Fin width)) (short : stem.length ≤ 30) (child : Option Word)

section Nodes
variable {width : Nat}

def StoredNode.toNode : StoredNode width → TreeNode Point
  | .internal children => { newNode width .internal with children := childList children }
  | .suffix children => { newNode width .suffix with children := childList children }
  | .extension stem _ child =>
    { newNode width .extension with stem := stem.map Fin.val, child := child.map Word.bytes }

/-- The reference that phase 2 stores a node under. -/
def reference (scheme : Scheme Point) (node : StoredNode width) : Except PyError Bytes := do
  let commitment ← commitNode scheme node.toNode
  nodeValue scheme commitment

/-- Nodes with equal references are equal. -/
def Determined (scheme : Scheme Point) (n m : StoredNode width) : Prop :=
  ∀ r, reference scheme n = .ok r → reference scheme m = .ok r → n = m

def entryValue (entry : Option Word) : Nat := childValue (entry.map Word.bytes)

def StoredNode.vector : StoredNode width → List Int
  | .internal children | .suffix children => (childValues (childList children)).map Int.ofNat
  | .extension stem _ child => [1, ofBytes (stemBytes stem), entryValue child, 0]

/-- Two entries are the same residue. An absent one counts as zero. -/
def Alike (a b : Option Word) : Prop := entryValue a % CURVE_ORDER = entryValue b % CURVE_ORDER

/-- The vector of an extension: its type, its stem and its child. -/
def extensionEntry (stem child : Nat) : Nat → Nat
  | 0 => 1
  | 1 => stem
  | 2 => child
  | _ => 0

/-- An array whose entries are those of an extension. -/
def Marked (children : Fin width → Option Word) (stem : List (Fin width)) (child : Option Word) :
    Prop :=
  ∀ i, entryValue (children i) % CURVE_ORDER =
    extensionEntry (ofBytes (stemBytes stem)) (entryValue child) i.val % CURVE_ORDER

def Confused : StoredNode width → StoredNode width → Prop
  | .internal f, .internal g | .suffix f, .suffix g => f ≠ g ∧ ∀ i, Alike (f i) (g i)
  | .internal f, .suffix g | .suffix f, .internal g => ∀ i, Alike (f i) (g i)
  | .extension stem _ child, .extension stem' _ child' =>
    (stem ≠ stem' ∨ child ≠ child') ∧ ofBytes (stemBytes stem) = ofBytes (stemBytes stem') ∧
      Alike child child'
  | .internal f, .extension stem _ child | .suffix f, .extension stem _ child
  | .extension stem _ child, .internal f | .extension stem _ child, .suffix f => Marked f stem child

theorem array_residues (f : Fin width → Option Word) (j : Nat) :
    (residues ((childValues (childList f)).map Int.ofNat) j : ZMod CURVE_ORDER) =
      if inside : j < width then (entryValue (f ⟨j, inside⟩) : ZMod CURVE_ORDER) else 0 := by
  by_cases inside : j < width
  · simp [residues, childValues, childList, List.getD_eq_getElem?_getD, inside, entryValue]
  · simp [residues, childValues, childList, List.getD_eq_getElem?_getD, inside]

theorem alike_iff (a b : Option Word) :
    Alike a b ↔ (entryValue a : ZMod CURVE_ORDER) = entryValue b :=
  (ZMod.natCast_eq_natCast_iff' _ _ _).symm

theorem arrays_same (f g : Fin width → Option Word) :
    (residues ((childValues (childList f)).map Int.ofNat) : Nat → ZMod CURVE_ORDER) =
      residues ((childValues (childList g)).map Int.ofNat) ↔ ∀ i, Alike (f i) (g i) := by
  constructor
  · intro same i
    have here := congrFun same i.val
    rw [array_residues, array_residues, dif_pos i.isLt, dif_pos i.isLt] at here
    exact (alike_iff _ _).mpr here
  · intro alike
    funext j
    rw [array_residues, array_residues]
    split
    · exact (alike_iff _ _).mp (alike _)
    · rfl

theorem stem_small {stem : List (Fin width)} (short : stem.length ≤ 30) :
    ofBytes (stemBytes stem) < CURVE_ORDER := by
  have bound := ofBytes_lt (stemBytes stem)
  have size : (stemBytes stem).length = stem.length := List.length_map _
  have most : 256 ^ (stemBytes stem).length ≤ 256 ^ 30 :=
    Nat.pow_le_pow_right (by decide) (size ▸ short)
  have room : 256 ^ 30 < CURVE_ORDER := by decide
  omega

theorem extension_residues (stem child j : Nat) :
    (residues [1, (stem : Int), (child : Int), 0] j : ZMod CURVE_ORDER) =
      (extensionEntry stem child j : Nat) := by
  match j with
  | 0 | 1 | 2 | 3 => simp [residues, extensionEntry]
  | j + 4 => simp [residues, extensionEntry]

theorem extensions_same {stem stem' : List (Fin width)} (short : stem.length ≤ 30)
    (short' : stem'.length ≤ 30) (child child' : Option Word) :
    (residues [1, (ofBytes (stemBytes stem) : Int), (entryValue child : Int), 0] :
        Nat → ZMod CURVE_ORDER) =
      residues [1, (ofBytes (stemBytes stem') : Int), (entryValue child' : Int), 0] ↔
      ofBytes (stemBytes stem) = ofBytes (stemBytes stem') ∧ Alike child child' := by
  constructor
  · intro same
    have one := congrFun same 1
    have two := congrFun same 2
    rw [extension_residues, extension_residues] at one two
    exact ⟨residues_equal (stem_small short) (stem_small short') one, (alike_iff _ _).mpr two⟩
  · rintro ⟨stems, alike⟩
    have two := (alike_iff _ _).mp alike
    funext j
    rw [extension_residues, extension_residues, stems]
    match j with
    | 0 | 1 | j + 3 => rfl
    | 2 => exact two

theorem marked_same (wide : 2 < width) (stem : List (Fin width)) (child : Option Word)
    (f : Fin width → Option Word) :
    (residues ((childValues (childList f)).map Int.ofNat) : Nat → ZMod CURVE_ORDER) =
      residues [1, (ofBytes (stemBytes stem) : Int), (entryValue child : Int), 0] ↔
      Marked f stem child := by
  constructor
  · intro same i
    have here := congrFun same i.val
    rw [array_residues, extension_residues, dif_pos i.isLt] at here
    exact (ZMod.natCast_eq_natCast_iff' _ _ _).mp here
  · intro marked
    funext j
    rw [array_residues, extension_residues]
    split
    · rename_i inside
      exact (ZMod.natCast_eq_natCast_iff' _ _ _).mpr (marked ⟨j, inside⟩)
    · rename_i outside
      obtain ⟨rest, rfl⟩ := Nat.exists_eq_add_of_le' (show 3 ≤ j by omega)
      exact Nat.cast_zero.symm

/-- Confused are the different nodes whose vectors are the same residues. -/
theorem confused_iff (wide : 2 < width) (n m : StoredNode width) : Confused n m ↔
    n ≠ m ∧ (residues n.vector : Nat → ZMod CURVE_ORDER) = residues m.vector := by
  cases n with
  | internal f =>
    cases m with
    | internal g => simp [Confused, StoredNode.vector, arrays_same]
    | suffix g => simp [Confused, StoredNode.vector, arrays_same]
    | extension stem short child => simp [Confused, StoredNode.vector, marked_same wide]
  | suffix f =>
    cases m with
    | internal g => simp [Confused, StoredNode.vector, arrays_same]
    | suffix g => simp [Confused, StoredNode.vector, arrays_same]
    | extension stem short child => simp [Confused, StoredNode.vector, marked_same wide]
  | extension stem short child =>
    cases m with
    | internal g => simp [Confused, StoredNode.vector, eq_comm, ← marked_same wide]
    | suffix g => simp [Confused, StoredNode.vector, eq_comm, ← marked_same wide]
    | extension stem' short' child' =>
      simp [Confused, StoredNode.vector, extensions_same short short', imp_iff_not_or]

end Nodes

/- The commitments. -/
section Commitments
variable {backend : Backend Point G1 G2 FQ12} {setup : SetupObject G1 G2} {width k bits : Nat}
  {w : ZMod CURVE_ORDER} (ready : Ready setup k w bits) (size : setup.width = width)
include ready size

theorem vector_fits (n : StoredNode width) : n.vector.length ≤ 2 ^ k := by
  have whole : width = 2 ^ k := size.symm.trans ready.lays.size
  cases n with
  | internal f | suffix f => simp [StoredNode.vector, childValues, whole]
  | extension stem short child => exact ready.wide

variable (backend)

theorem commitNode_vector (n : StoredNode width) : commitNode (kzgScheme backend setup) n.toNode =
    commitValues backend.curve backend.logFloor setup n.vector := by
  subst size
  have padded (f : Fin setup.width → Option Word) :
      setup.width - ((childValues (childList f)).map Int.ofNat).length = 0 := by
    simp [childValues]
  cases n with
  | internal f | suffix f =>
    simp only [commitNode, StoredNode.toNode, newNode, kzgScheme, commit, padded,
      List.replicate_zero, List.append_nil, StoredNode.vector]
  | extension stem short child =>
    have narrow : setup.width ≤ 256 := ready.lays.size ▸ ready.narrow
    have bytes : bytesOf (stem.map Fin.val) = .ok (stemBytes stem) := by
      rw [bytesOf_ok (narrow_chunks (narrow_stem narrow stem)), stemBytes, List.map_map]
      rfl
    simp only [commitNode, StoredNode.toNode, newNode, kzgScheme, commitExtension, bytes, bind,
      Except.bind, StoredNode.vector, entryValue]

theorem reference_same {n m : StoredNode width}
    (same : (residues n.vector : Nat → ZMod CURVE_ORDER) = residues m.vector) :
    reference (kzgScheme backend setup) n = reference (kzgScheme backend setup) m := by
  rw [reference, reference, commitNode_vector backend ready size, commitNode_vector backend ready size,
    commitValues_congr backend.curve backend.logFloor ready.lays (vector_fits ready size n)
      (vector_fits ready size m) same]

variable (residue : ∀ p, backend.format.hashPointToField p setup.modulus < CURVE_ORDER)
include residue

theorem reference_ok (n : StoredNode width) : ∃ p,
    commitNode (kzgScheme backend setup) n.toNode = .ok p ∧
    reference (kzgScheme backend setup) n =
      .ok (toBytes 32 (backend.format.hashPointToField p setup.modulus)) := by
  obtain ⟨p, run⟩ := commitValues_ok backend.curve backend.logFloor ready.lays ready.points
    (vector_fits ready size n)
  rw [← commitNode_vector backend ready size n] at run
  have room : CURVE_ORDER ≤ 256 ^ 32 := by decide
  refine ⟨p, run, ?_⟩
  simp only [reference, run, nodeValue, bind, Except.bind]
  exact intToBytes_ok (Nat.lt_of_lt_of_le (residue p) room)

end Commitments

/-- Commitments to residues are equal for equal vectors only. -/
def Binding (backend : Backend Point G1 G2 FQ12) (setup : SetupObject G1 G2) : Prop :=
  ∀ (v v' : List Int) (p : Point), v.length = setup.width → v'.length = setup.width →
    Reduced setup.modulus v → Reduced setup.modulus v' →
    commitValues backend.curve backend.logFloor setup v = .ok p →
    commitValues backend.curve backend.logFloor setup v' = .ok p → v = v'

theorem binding_residues {backend : Backend Point G1 G2 FQ12} {setup : SetupObject G1 G2}
    (binding : Binding backend setup) {k : Nat} {w : ZMod CURVE_ORDER}
    (lays : Lays setup.toTables CURVE_ORDER k w) {values more : List Int}
    (few : values.length ≤ 2 ^ k) (few' : more.length ≤ 2 ^ k) {p : Point}
    (run : commitValues backend.curve backend.logFloor setup values = .ok p)
    (run' : commitValues backend.curve backend.logFloor setup more = .ok p) :
    (residues values : Nat → ZMod CURVE_ORDER) = residues more := by
  have length {l : List Int} (few : l.length ≤ 2 ^ k) :
      (zeroPadded CURVE_ORDER (2 ^ k) l).length = 2 ^ k := by
    rw [zeroPadded, List.length_append, List.length_map, List.length_replicate]
    omega
  have padded (l : List Int) : (residues (zeroPadded CURVE_ORDER (2 ^ k) l) : Nat → ZMod CURVE_ORDER) =
      residues l := funext (zeroPadded_residues (2 ^ k) l)
  have canonical {l : List Int} (few : l.length ≤ 2 ^ k) :
      commitValues backend.curve backend.logFloor setup (zeroPadded CURVE_ORDER (2 ^ k) l) =
        commitValues backend.curve backend.logFloor setup l :=
    commitValues_congr _ _ lays (Nat.le_of_eq (length few)) few (padded l)
  have reduced (l : List Int) : Reduced setup.modulus (zeroPadded CURVE_ORDER (2 ^ k) l) := by
    rw [lays.order]
    exact zeroPadded_reduced _ _
  have equal := binding _ _ p ((length few).trans lays.size.symm) ((length few').trans lays.size.symm)
    (reduced _) (reduced _) ((canonical few).trans run) ((canonical few').trans run')
  rw [← padded values, equal, padded more]

/-- A reference determines its node if and only if the two are not confused,
    where neither the commitment nor the hash collides. -/
theorem reference_determines_iff {backend : Backend Point G1 G2 FQ12} {setup : SetupObject G1 G2}
    (tables : setup.toTables = tablesOf 256) (points : 256 ≤ setup.setup0.length)
    (residue : ∀ p, backend.format.hashPointToField p setup.modulus < setup.modulus)
    (binding : Binding backend setup) (n m : StoredNode 256)
    (apart : ∀ p q, commitNode (kzgScheme backend setup) n.toNode = .ok p →
      commitNode (kzgScheme backend setup) m.toNode = .ok q →
      backend.format.hashPointToField p setup.modulus =
        backend.format.hashPointToField q setup.modulus → p = q) :
    Determined (kzgScheme backend setup) n m ↔ ¬ Confused n m := by
  obtain ⟨k, bits, _, size, ready⟩ := tables_ready (Or.inr rfl) tables points
  have order := ready.lays.order
  have small : ∀ p, backend.format.hashPointToField p setup.modulus < CURVE_ORDER := fun p =>
    Nat.lt_of_lt_of_eq (residue p) order
  obtain ⟨p, run, ref⟩ := reference_ok backend ready size small n
  obtain ⟨q, run', ref'⟩ := reference_ok backend ready size small m
  rw [confused_iff (by decide)]
  constructor
  · rintro determined ⟨different, same⟩
    have equal := reference_same backend ready size same
    exact different (determined _ ref (equal ▸ ref))
  · intro clear r first second
    rw [ref] at first
    rw [ref'] at second
    have hashes : backend.format.hashPointToField p setup.modulus =
        backend.format.hashPointToField q setup.modulus := by
      have room : CURVE_ORDER < 256 ^ 32 := by decide
      exact toBytes_injective (Nat.lt_trans (small p) room) (Nat.lt_trans (small q) room)
        (Except.ok.inj (first.trans second.symm))
    have points := apart p q run run' hashes
    subst points
    rw [commitNode_vector backend ready size] at run run'
    by_contra different
    exact clear ⟨different, binding_residues binding ready.lays (vector_fits ready size n)
      (vector_fits ready size m) run run'⟩

/- Commitments as polynomials bind, and any hash tells two of them apart or not. -/

theorem polynomial_binding {width : Nat} (supported : width = 16 ∨ width = 256) (logFloor : Nat → Nat)
    (sha256 : Bytes → Bytes) (hash : LowPolynomial width → Nat) (codec : Codec (LowPolynomial width)) :
    Binding (polynomialBackend width logFloor sha256 hash codec)
      (polynomialSetup (tablesOf width)) := by
  obtain ⟨k, bits, power, ready, ideal⟩ := polynomial_ready supported
  intro v v' p length length' reduced reduced' run run'
  have size := ready.lays.size
  have first := committed_poly power ideal logFloor (by omega) run
  have second := committed_poly power ideal logFloor (by omega) run'
  rw [ready.lays.order] at reduced reduced'
  apply reduced_unique reduced reduced' (by omega)
  intro j inside
  have within : j < 2 ^ k := by omega
  have values := congrArg (Polynomial.eval (rootOf width ^ j)) (first.symm.trans second)
  rwa [interp_eval ready.lays.primitive within, interp_eval ready.lays.primitive within] at values

def loneValue : StoredNode 256 := .suffix fun i => if i.val = 0 then some sampleValue else none

def zeroWord : Word := ⟨List.replicate 32 0, rfl⟩

def zeroBeside : StoredNode 256 :=
  .suffix fun i => if i.val = 0 then some sampleValue else if i.val = 1 then some zeroWord else none

def movedValue : StoredNode 256 := .suffix fun i => if i.val = 1 then some sampleValue else none

noncomputable def lowCodec (width : Nat) : Codec (LowPolynomial width) :=
  losslessCodec (LowPolynomial width)

noncomputable def firstEntryBackend : Backend (LowPolynomial 256) (ZMod CURVE_ORDER)[X]
    (ZMod CURVE_ORDER)[X] (ZMod CURVE_ORDER)[X] :=
  polynomialBackend 256 sampleLogFloor (fun _ => List.replicate 32 1) (fun p => (p.poly.eval 1).val)
    (lowCodec 256)

theorem firstEntry_hash {n : StoredNode 256} {p : LowPolynomial 256}
    (run : commitNode (kzgScheme firstEntryBackend (polynomialSetup (tablesOf 256))) n.toNode = .ok p) :
    p.poly.eval 1 = residues n.vector 0 := by
  obtain ⟨k, bits, power, ready, ideal⟩ := polynomial_ready (Or.inr rfl : 256 = 16 ∨ 256 = 256)
  have size : (polynomialSetup (tablesOf 256)).width = 256 := ready.lays.size.trans power.symm
  rw [commitNode_vector _ ready size] at run
  have poly := committed_poly power ideal sampleLogFloor (vector_fits ready size n) run
  have value := interp_eval ready.lays.primitive (Nat.two_pow_pos k) (residues n.vector)
  rwa [pow_zero, ← poly] at value

theorem zeroBeside_confused : Confused loneValue zeroBeside := by
  refine ⟨fun same => ?_, fun i => ?_⟩
  · have second := congrFun same 1
    cases second
  · by_cases first : i.val = 0
    · simp only [Alike, first, ↓reduceIte]
    · by_cases second : i.val = 1
      · simp only [Alike, second, one_ne_zero, ↓reduceIte]
        decide
      · simp only [Alike, first, second, ↓reduceIte]

theorem reference_determines_sample :
    Determined (kzgScheme firstEntryBackend (polynomialSetup (tablesOf 256))) loneValue movedValue ↔
      ¬ Confused loneValue movedValue := by
  obtain ⟨k, bits, power, ready, _⟩ := polynomial_ready (Or.inr rfl : 256 = 16 ∨ 256 = 256)
  have order : (polynomialSetup (tablesOf 256)).modulus = CURVE_ORDER := ready.lays.order
  have positive : 0 < (polynomialSetup (tablesOf 256)).modulus := by
    rw [order]
    decide
  refine reference_determines_iff (polynomialSetup_tables _)
    (Nat.le_trans (Nat.le_of_eq power) ready.points) (fun p => Nat.mod_lt _ positive)
    (polynomial_binding (Or.inr rfl) _ _ _ _) loneValue movedValue ?_
  intro p q run run' same
  have first : (p.poly.eval 1).val = 7 := by
    rw [firstEntry_hash run]
    decide
  have second : (q.poly.eval 1).val = 0 := by
    rw [firstEntry_hash run']
    decide
  have hashes : (p.poly.eval 1).val % (polynomialSetup (tablesOf 256)).modulus =
      (q.poly.eval 1).val % (polynomialSetup (tablesOf 256)).modulus := same
  rw [order, first, second] at hashes
  exact absurd hashes (by decide)

/-- A zero next to a value does not change the reference. -/
theorem reference_undetermined :
    Binding firstEntryBackend (polynomialSetup (tablesOf 256)) ∧
      ¬ Determined (kzgScheme firstEntryBackend (polynomialSetup (tablesOf 256))) loneValue
        zeroBeside := by
  obtain ⟨k, bits, power, ready, _⟩ := polynomial_ready (Or.inr rfl : 256 = 16 ∨ 256 = 256)
  have size : (polynomialSetup (tablesOf 256)).width = 256 := ready.lays.size.trans power.symm
  have positive : 0 < (polynomialSetup (tablesOf 256)).modulus := by
    rw [ready.lays.order]
    decide
  have residue : ∀ p, firstEntryBackend.format.hashPointToField p
      (polynomialSetup (tablesOf 256)).modulus < CURVE_ORDER := fun p =>
    Nat.lt_of_lt_of_eq (Nat.mod_lt _ positive) ready.lays.order
  obtain ⟨different, same⟩ := (confused_iff (by decide) _ _).mp zeroBeside_confused
  obtain ⟨p, _, ref⟩ := reference_ok _ ready size residue loneValue
  refine ⟨polynomial_binding (Or.inr rfl) _ _ _ _, fun determined => ?_⟩
  have equal := reference_same firstEntryBackend ready size same
  exact different (determined _ ref (equal ▸ ref))

end VerkleReferences
