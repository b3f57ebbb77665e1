import StatelessEthereum.IdealCurve
import StatelessEthereum.Openings
import StatelessEthereum.VerkleProof
import StatelessEthereum.VerkleVerification

/- The loops of the Verkle provers and verifiers as lists of openings: what a
   key passes on its way down the tree, and what one level adds to a total. -/
namespace VerkleOpenings
open Polynomial PythonError BigEndian PutLog EvaluationDomain Fft PolyUtils KzgSetup KzgScheme
open CommitmentScheme HashScheme IdealCurve Openings VerkleProof
open VerkleTrees hiding insert get
open StemTree hiding insert lookup
open VerkleStorage VerkleKey VerkleRuns
variable {Point G1 G2 FQ12 A : Type} [CommRing A] [Algebra (ZMod CURVE_ORDER) A]

/-- A node on the way of a key: what it commits to, and where it is opened. -/
structure Station (Point : Type) where
  point : Option Point
  type : NodeType
  values : List Int
  index : Nat

section Stations
variable (scheme : Scheme Point)

def arrayStation (type : NodeType) (f : Fin scheme.width → Option Word) (i : Fin scheme.width) :
    Station Point :=
  ⟨arrayPoint scheme f, type, arrayValues (childList f), i.val⟩

def extensionStation (stem : List (Fin scheme.width)) (child : Option Word) : Station Point :=
  ⟨extensionPoint scheme stem child, .extension,
    extensionValues scheme.width (stemBytes stem) (child.map Word.bytes), 2⟩

/-- What the walk of a key passes. No walk but that of `get_proof_tree` compares stems. -/
def stations : Trie scheme.width → List (Fin scheme.width) → Fin scheme.width →
    List (Station Point)
  | .empty, _, _ => []
  | .group stem slots, _, x =>
    [extensionStation scheme stem (suffixRef scheme slots), arrayStation scheme .suffix slots x]
  | .inner _, [], _ => []
  | .inner kids, i :: k, x =>
    arrayStation scheme .internal (refs scheme kids) i :: stations (kids i) k x

end Stations

def Station.leaf (station : Station Point) : Int := station.values.getD station.index 0

/-- The factor of a level of a path; no path of a key makes it raise. -/
def factorAt (sha256 : Bytes → Bytes) (rootBytes : Bytes) (path : List Nat) (level : Nat) :
    ZMod CURVE_ORDER :=
  match deriveRFactorHash sha256 rootBytes path level CURVE_ORDER with
  | .ok r => (r : ZMod CURVE_ORDER)
  | .error _ => 0

section Factors
variable (w : ZMod CURVE_ORDER) (n : Nat) (factor : Nat → ZMod CURVE_ORDER)

noncomputable def Station.opening (r : ZMod CURVE_ORDER) (station : Station Point) :
    Opening (ZMod CURVE_ORDER) (ZMod CURVE_ORDER)[X] :=
  trueOpening w n r (residues station.values) station.index

noncomputable def openingsFrom : Nat → List (Station Point) →
    List (Opening (ZMod CURVE_ORDER) (ZMod CURVE_ORDER)[X])
  | _, [] => []
  | level, station :: rest => station.opening w n (factor level) :: openingsFrom (level + 1) rest

theorem openingsFrom_append (level : Nat) (passed more : List (Station Point)) :
    openingsFrom w n factor level (passed ++ more) = openingsFrom w n factor level passed ++
      openingsFrom w n factor (level + passed.length) more := by
  induction passed generalizing level with
  | nil => rfl
  | cons station passed ih =>
    rw [List.cons_append, openingsFrom, ih, openingsFrom, List.length_cons, List.cons_append,
      show level + 1 + passed.length = level + (passed.length + 1) by omega]

end Factors

/- One level of a prover. -/

theorem factorAt_ok (sha256 : Bytes → Bytes) (rootBytes : Bytes) {path : List Nat} {level : Nat}
    (small : ∀ i ∈ path, i < 256 ^ 2) (shallow : level < 256 ^ 2) :
    ∃ r, deriveRFactorHash sha256 rootBytes path level CURVE_ORDER = .ok r ∧
      (r : ZMod CURVE_ORDER) = factorAt sha256 rootBytes path level := by
  obtain ⟨r, run⟩ := deriveRFactorHash_ok sha256 rootBytes small shallow CURVE_ORDER
  exact ⟨r, run, by rw [factorAt, run]⟩

/-- A factor that is not zero as a number is not zero in the field. -/
theorem factor_unit (sha256 : Bytes → Bytes) (rootBytes : Bytes) {path : List Nat} {level : Nat}
    (small : ∀ i ∈ path, i < 256 ^ 2) (shallow : level < 256 ^ 2)
    (nonzero : deriveRFactorHash sha256 rootBytes path level CURVE_ORDER ≠ .ok 0) :
    factorAt sha256 rootBytes path level ≠ 0 := by
  obtain ⟨r, run, cast⟩ := factorAt_ok sha256 rootBytes small shallow
  have residue : r < CURVE_ORDER := by
    obtain ⟨bytes, _, run'⟩ := ok_of_bind run
    obtain ⟨levelBytes, _, run''⟩ := ok_of_bind run'
    cases run''
    exact Nat.mod_lt _ (by decide)
  intro zero
  rw [zero, ZMod.natCast_eq_zero_iff] at cast
  have none := Nat.eq_zero_of_dvd_of_lt cast residue
  exact nonzero (none ▸ run)

section Prover
variable {backend : Backend Point G1 G2 FQ12} {setup : SetupObject G1 G2} {k : Nat}
  {w : ZMod CURVE_ORDER}

/-- The polynomial that a list of values stands for, over the whole domain. -/
noncomputable def lifted (w : ZMod CURVE_ORDER) (n : Nat) (total : List Int) :
    (ZMod CURVE_ORDER)[X] :=
  (X ^ n - 1) * interp w n (residues total)

/-- A total of a prover: as long as the domain, and of residues. -/
structure Totals (n : Nat) (total : List Int) : Prop where
  size : total.length = n
  reduced : Reduced CURVE_ORDER total

theorem totals_zero (n : Nat) : Totals n (List.replicate n 0) where
  size := List.length_replicate
  reduced c member := by
    rw [List.eq_of_mem_replicate member]
    exact ⟨le_refl 0, by decide⟩

theorem interp_zeros {n : Nat} (root : IsPrimitiveRoot w n) :
    interp w n (residues (List.replicate n 0)) = 0 := by
  have zero : interp w n (residues (List.replicate n 0)) = interp w n fun _ => 0 * 0 := by
    apply interp_congr root
    intro i inside
    simp [residues, List.getD_eq_getElem?_getD, inside]
  rw [zero, interp_scale root 0 fun _ => 0, C_0, zero_mul]

theorem lifted_zero {n : Nat} (root : IsPrimitiveRoot w n) : lifted w n (List.replicate n 0) = 0 := by
  rw [lifted, interp_zeros root, mul_zero]

theorem totals_unique {n : Nat} (root : IsPrimitiveRoot w n) (some : 0 < n) {total more : List Int}
    (totals : Totals n total) (totals' : Totals n more) (same : lifted w n total = lifted w n more) :
    total = more := by
  have polynomials := quotient_unique some same
  apply reduced_unique totals.reduced totals'.reduced (totals.size.trans totals'.size.symm)
  intro i inside
  have within : i < n := totals.size ▸ inside
  have values := congrArg (Polynomial.eval (w ^ i)) polynomials
  rwa [interp_eval root within, interp_eval root within] at values

/-- A quotient times a factor in a total is the term of an opening. -/
theorem quotient_added (lays : Lays setup.toTables CURVE_ORDER k w) {values : List Int}
    (size : values.length = 2 ^ k) {idx : Nat} (inside : idx < 2 ^ k) (r : Nat) {total : List Int}
    (totals : Totals (2 ^ k) total) :
    ∃ q, generateQuotient setup.toTables values idx = .ok q ∧ q.length = 2 ^ k ∧
      Totals (2 ^ k) (List.zipWith (fun (t q : Int) => (t + q * r) % CURVE_ORDER) total q) ∧
      lifted w (2 ^ k) (List.zipWith (fun (t q : Int) => (t + q * r) % CURVE_ORDER) total q) =
        lifted w (2 ^ k) total + (trueOpening w (2 ^ k) (r : ZMod CURVE_ORDER) (residues values)
          idx).term w (2 ^ k) X := by
  obtain ⟨q, divided, sizeQ, off, top⟩ := generateQuotient_divides lays inside size
  have root := lays.primitive
  let more := List.zipWith (fun (t q : Int) => (t + q * r) % CURVE_ORDER) total q
  have sizes : more.length = 2 ^ k := by simp [more, totals.size, sizeQ]
  have reduced : Reduced CURVE_ORDER more := by
    intro c member
    obtain ⟨i, within, rfl⟩ := List.getElem_of_mem member
    simp only [more, List.getElem_zipWith]
    exact mod_reduced _
  have entries (i : Nat) (within : i < 2 ^ k) : residues more i =
      residues total i + (r : ZMod CURVE_ORDER) * residues q i := by
    rw [residues_zipWith _ _ _ (totals.size ▸ within) (sizeQ ▸ within), ZMod.intCast_mod,
      Int.cast_add, Int.cast_mul, Int.cast_natCast, mul_comm]
    rfl
  refine ⟨q, divided, sizeQ, ⟨sizes, reduced⟩, ?_⟩
  rw [trueOpening_term root _ inside off top, lifted, interp_congr root entries, interp_add root,
    interp_scale root, lifted]
  ring

variable (backend) in
theorem addOpening_ok (lays : Lays setup.toTables CURVE_ORDER k w) (rootBytes : Bytes)
    {path : List Nat} (small : ∀ i ∈ path, i < 256 ^ 2) {level : Nat} (shallow : level < 256 ^ 2)
    {values : List Int} (size : values.length = 2 ^ k) {idx : Nat} (inside : idx < 2 ^ k)
    {total : List Int} (totals : Totals (2 ^ k) total) :
    ∃ more, addOpening backend setup rootBytes path level values idx total = .ok more ∧
      Totals (2 ^ k) more ∧ lifted w (2 ^ k) more = lifted w (2 ^ k) total +
        (trueOpening w (2 ^ k) (factorAt backend.sha256 rootBytes path level) (residues values)
          idx).term w (2 ^ k) X := by
  obtain ⟨r, hashed, factor⟩ := factorAt_ok backend.sha256 rootBytes small shallow
  obtain ⟨q, divided, sizeQ, totals', poly⟩ := quotient_added lays size inside r totals
  refine ⟨_, ?_, totals', by rw [poly, factor]⟩
  simp only [addOpening, divided, hashed, bind, Except.bind]
  rw [if_neg (by rw [totals.size, sizeQ]; exact Nat.lt_irrefl _)]

end Prover

/- The walk of a prover. -/

/-- The walk of a key ends at a group, of its stem or of another. -/
def Lands {width : Nat} : Trie width → List (Fin width) → Prop
  | .empty, _ => False
  | .group _ _, _ => True
  | .inner _, [] => False
  | .inner kids, i :: k => Lands (kids i) k

theorem lookup_lands {width : Nat} {t : Trie width} {k : List (Fin width)} {x : Fin width}
    (found : StemTree.lookup t k x ≠ none) : Lands t k := by
  induction t generalizing k with
  | empty => exact found rfl
  | group stem slots => trivial
  | inner kids ih =>
    cases k with
    | nil => exact found rfl
    | cons i k => exact ih i found

theorem stations_length (scheme : Scheme Point) (t : Trie scheme.width)
    (k : List (Fin scheme.width)) (x : Fin scheme.width) :
    (stations scheme t k x).length ≤ k.length + 2 := by
  induction t generalizing k with
  | empty => exact Nat.zero_le _
  | group stem slots => simp [stations]
  | inner kids ih =>
    cases k with
    | nil => exact Nat.zero_le _
    | cons i k =>
      have rest := ih i k
      simp only [stations, List.length_cons]
      omega

theorem lands_stations (scheme : Scheme Point) {t : Trie scheme.width}
    {k : List (Fin scheme.width)} (lands : Lands t k) (x : Fin scheme.width) :
    2 ≤ (stations scheme t k x).length := by
  induction t generalizing k with
  | empty => exact lands.elim
  | group stem slots => exact Nat.le_refl _
  | inner kids ih =>
    cases k with
    | nil => exact lands.elim
    | cons i k => exact Nat.le_succ_of_le (ih i lands)

theorem station_known {scheme : Scheme Point} (lawful : Lawful scheme) (narrow : scheme.width ≤ 256)
    (t : Trie scheme.width) (k : List (Fin scheme.width)) (x : Fin scheme.width) :
    ∃ ps : List Point, (stations scheme t k x).map Station.point = ps.map some := by
  induction t generalizing k with
  | empty => exact ⟨[], rfl⟩
  | group stem slots =>
    obtain ⟨p, point, _⟩ := commit_extension lawful (narrow_stem narrow stem)
      (suffixRef scheme slots)
    obtain ⟨q, point', _⟩ := commit_childList lawful slots
    exact ⟨[p, q], by simp [stations, extensionStation, arrayStation, point, point']⟩
  | inner kids ih =>
    cases k with
    | nil => exact ⟨[], rfl⟩
    | cons i k =>
      obtain ⟨ps, below⟩ := ih i k
      obtain ⟨p, point, _⟩ := commit_childList lawful (refs scheme kids)
      exact ⟨p :: ps, by simp [stations, arrayStation, point, below]⟩

/-- The walk of an inserted key passes what `get_proof_tree` does. -/
theorem proofPoints_stations {scheme : Scheme Point} {t : Trie scheme.width}
    {k : List (Fin scheme.width)} {x : Fin scheme.width} (found : StemTree.lookup t k x ≠ none) :
    proofPoints scheme t k = (stations scheme t k x).map Station.point := by
  induction t generalizing k with
  | empty => exact absurd rfl found
  | group stem slots =>
    by_cases same : k = stem
    · simp [proofPoints, stations, same, nodePoint, extensionStation, arrayStation]
    · simp [StemTree.lookup, same] at found
  | inner kids ih =>
    cases k with
    | nil => exact absurd rfl found
    | cons i k => rw [proofPoints, stations, List.map_cons, ih i found]; rfl

section Walk
variable {backend : Backend Point G1 G2 FQ12} {setup : SetupObject G1 G2} {k bits : Nat}
  {w : ZMod CURVE_ORDER}

theorem arrayValues_length {width : Nat} (f : Fin width → Option Word) :
    (arrayValues (childList f)).length = width := by
  simp [arrayValues, childValues]

theorem extensionValues_length {width : Nat} (wide : 4 ≤ width) (stem : Bytes)
    (child : Option Bytes) : (extensionValues width stem child).length = width := by
  simp [extensionValues]
  omega

variable (backend) in
/-- Every station opens a vector of the domain at a point of it. -/
theorem stations_fit (ready : Ready setup k w bits) (t : Trie (kzgScheme backend setup).width)
    (digits : List (Fin (kzgScheme backend setup).width)) (x : Fin (kzgScheme backend setup).width) :
    ∀ station ∈ stations (kzgScheme backend setup) t digits x,
      station.values.length = 2 ^ k ∧ station.index < 2 ^ k := by
  have width : (kzgScheme backend setup).width = 2 ^ k := ready.lays.size
  have wide := ready.wide
  induction t generalizing digits with
  | empty => simp [stations]
  | group stem slots =>
    intro station member
    simp only [stations, List.mem_cons, List.not_mem_nil, or_false] at member
    rcases member with rfl | rfl
    · exact ⟨(extensionValues_length (by omega) _ _).trans width, by simp [extensionStation]; omega⟩
    · exact ⟨(arrayValues_length slots).trans width, width ▸ x.isLt⟩
  | inner kids ih =>
    cases digits with
    | nil => simp [stations]
    | cons i digits =>
      intro station member
      rw [stations, List.mem_cons] at member
      rcases member with rfl | below
      · exact ⟨(arrayValues_length _).trans width, width ▸ i.isLt⟩
      · exact ih i digits station below

theorem openNodes_ok (lawful : Lawful (kzgScheme backend setup)) (ready : Ready setup k w bits)
    {db : Store Bytes Bytes} (valid : db.Consistent) (rootBytes : Bytes) {path : List Nat}
    (small : ∀ i ∈ path, i < 256 ^ 2) (x : Fin (kzgScheme backend setup).width)
    {t : Trie (kzgScheme backend setup).width}
    {digits : List (Fin (kzgScheme backend setup).width)} (lands : Lands t digits)
    {node : TreeNode Point} (object : ObjectOf (kzgScheme backend setup) db node t) {turns : Nat}
    (enough : (stations (kzgScheme backend setup) t digits x).length ≤ turns) {level : Nat}
    (shallow : level + (stations (kzgScheme backend setup) t digits x).length ≤ 256 ^ 2)
    {total : List Int} (totals : Totals (2 ^ k) total) :
    ∃ more, openNodes backend setup db rootBytes path x.val turns level node
        (digits.map Fin.val) total = .ok more ∧ Totals (2 ^ k) more ∧
      lifted w (2 ^ k) more = lifted w (2 ^ k) total + Openings.total w (2 ^ k) X
        (openingsFrom w (2 ^ k) (factorAt backend.sha256 rootBytes path) level
          (stations (kzgScheme backend setup) t digits x)) := by
  have fit := stations_fit backend ready t digits x
  induction t generalizing digits node turns level total with
  | empty => exact lands.elim
  | group stem slots =>
    cases object with
    | group typed covers holds _ stored named =>
      simp only [stations, List.length_cons, List.length_nil] at enough shallow
      obtain ⟨turns, rfl⟩ := Nat.exists_eq_add_of_le' enough
      obtain ⟨p, _, _, loads⟩ := suffix_loads lawful valid stored named
      have bytes : bytesOf node.stem = .ok (stemBytes stem) := by
        rw [covers, bytesOf_ok (narrow_chunks (narrow_stem (ready_narrow ready) stem)), stemBytes,
          List.map_map]
        rfl
      obtain ⟨sizeE, insideE⟩ := fit (extensionStation (kzgScheme backend setup) stem
        (suffixRef (kzgScheme backend setup) slots)) (by simp [stations])
      obtain ⟨sizeS, insideS⟩ := fit (arrayStation (kzgScheme backend setup) .suffix slots x)
        (by simp [stations])
      obtain ⟨first, runE, totalsE, polyE⟩ := addOpening_ok backend ready.lays rootBytes small
        (show level < 256 ^ 2 by omega) sizeE insideE totals
      obtain ⟨second, runS, totalsS, polyS⟩ := addOpening_ok backend ready.lays rootBytes small
        (show level + 1 < 256 ^ 2 by omega) sizeS insideS totalsE
      refine ⟨second, ?_, totalsS, ?_⟩
      · rw [show turns + (0 + 1 + 1) = turns + 1 + 1 by omega]
        simp only [extensionStation, arrayStation, named, Option.map_some] at runE runS
        rw [← holds] at runE loads
        have runE' : addOpening backend setup rootBytes path level
            (extensionValues setup.width (stemBytes stem) node.child) 2 total = .ok first := runE
        simp only [openNodes, typed, bytes, runE', loads, bind, Except.bind]
        exact runS
      · rw [polyS, polyE]
        simp only [stations, openingsFrom, total_cons, total_nil, Station.opening]
        ring
  | inner kids ih =>
    cases object with
    | inner typed children _ written =>
      cases digits with
      | nil => exact lands.elim
      | cons i digits =>
        simp only [stations, List.length_cons] at enough shallow
        obtain ⟨turns, rfl⟩ := Nat.exists_eq_add_of_le' (Nat.le_trans (Nat.le_add_left 1 _) enough)
        have gone : kids i ≠ .empty := by
          intro empty
          rw [Lands, empty] at lands
          exact lands
        obtain ⟨ref, next, named, loads, object'⟩ := written_loads lawful valid gone (written i)
        obtain ⟨size, inside⟩ := fit (arrayStation (kzgScheme backend setup) .internal
          (refs (kzgScheme backend setup) kids) i) (by simp [stations])
        obtain ⟨first, run, totals', poly⟩ := addOpening_ok backend ready.lays rootBytes small
          (show level < 256 ^ 2 by omega) size inside totals
        have below : (stations (kzgScheme backend setup) (kids i) digits x).length ≤ turns := by omega
        have deeper : level + 1 + (stations (kzgScheme backend setup) (kids i) digits x).length ≤
            256 ^ 2 := by omega
        obtain ⟨more, runs, totals'', polys⟩ := ih i lands object' below deeper totals'
          (fun station member => fit station (by rw [stations]; exact List.mem_cons_of_mem _ member))
        refine ⟨more, ?_, totals'', ?_⟩
        · simp only [openNodes, typed, children, List.map_cons, childList_get, refs, named, bind,
            Except.bind, Option.map_some, entry_word, loads]
          simp only [arrayStation] at run
          rw [run]
          exact runs
        · rw [polys, poly]
          simp only [stations, openingsFrom, total_cons, Station.opening]
          ring

end Walk

/- All keys. -/

theorem foldlM_adds {ε σ α M : Type} [AddCommMonoid M] {f : σ → α → Except ε σ} (good : σ → Prop)
    (measure : σ → M) {delta : α → M} {l : List α}
    (step : ∀ a ∈ l, ∀ s, good s →
      ∃ t, f s a = .ok t ∧ good t ∧ measure t = measure s + delta a) {s : σ} (start : good s) :
    ∃ t, l.foldlM f s = .ok t ∧ good t ∧ measure t = measure s + (l.map delta).sum := by
  induction l generalizing s with
  | nil => exact ⟨s, rfl, start, by rw [List.map_nil, List.sum_nil, add_zero]⟩
  | cons a l ih =>
    obtain ⟨t, run, kept, more⟩ := step a List.mem_cons_self s start
    obtain ⟨u, runs, kept', more'⟩ := ih
      (fun b member => step b (List.mem_cons_of_mem _ member)) kept
    refine ⟨u, by simp only [List.foldlM_cons, run, runs, bind, Except.bind], kept', ?_⟩
    rw [more', more, List.map_cons, List.sum_cons, add_assoc]

/-- A tree over a setup that holds what inserts have built. -/
structure Grown (backend : Backend Point G1 G2 FQ12) (setup : SetupObject G1 G2) (k : Nat)
    (w : ZMod CURVE_ORDER) (bits : Nat) (tree : VerkleTree Point)
    (kids : Fin (kzgScheme backend setup).width → Trie (kzgScheme backend setup).width) : Prop where
  faithful : Faithful backend.format
  ready : Ready setup k w bits
  held : Represents (kzgScheme backend setup) tree kids
  rooted : Rooted kids (depth (kzgScheme backend setup).width)
  valid : tree.disk.db.Consistent

def pathOf (width : Nat) (key : Bytes) : List Nat := (keyToPath width key).toOption.getD []

/-- What `get_proof_tree` gives for a key: all points of its walk but the root. -/
def proofOf (scheme : Scheme Point) (t : Trie scheme.width) (digits : List (Fin scheme.width)) :
    List Point :=
  ((proofPoints scheme t digits).drop 1).filterMap id

section Keys
variable {backend : Backend Point G1 G2 FQ12} {setup : SetupObject G1 G2} {k bits : Nat}
  {w : ZMod CURVE_ORDER} {tree : VerkleTree Point}
  {kids : Fin (kzgScheme backend setup).width → Trie (kzgScheme backend setup).width}

theorem pathOf_ok (ready : Ready setup k w bits) (key : Bytes) :
    keyToPath setup.width key = .ok (pathOf setup.width key) ∧
      ∀ i ∈ pathOf setup.width key, i < 256 ^ 2 := by
  have size := ready.lays.size
  have wide := ready.wide
  have narrow := ready.narrow
  obtain ⟨path, run, small⟩ := keyToPath_ok (show 2 ≤ setup.width by omega) (by omega) key
  have same : pathOf setup.width key = path := by rw [pathOf, run]; rfl
  exact ⟨by rw [same, run], by rwa [same]⟩

variable (backend) in
theorem chunks_ok [NeZero (kzgScheme backend setup).width] (ready : Ready setup k w bits)
    (key : Word) : ∃ chunks, getKeyChunks setup.width key.bytes = .ok chunks ∧
    chunks.getLast? = some (suffixOf (kzgScheme backend setup).width key).val ∧
    chunks.dropLast = (stemOf (kzgScheme backend setup).width key).map Fin.val := by
  have aligned : Aligned (kzgScheme backend setup).width bits := ready.aligned
  have digits := keyDigits_val aligned.toCuts key
  rw [keyDigits_split aligned.toCuts, List.map_append, List.map_singleton] at digits
  refine ⟨keyChunks setup.width key.bytes, getKeyChunks_ok aligned.toCuts key.bytes, ?_, ?_⟩
  · exact digits ▸ List.getLast?_concat
  · exact digits ▸ List.dropLast_concat

variable (grown : Grown backend setup k w bits tree kids)
include grown

theorem grown_root : ∃ p root, nodePoint (kzgScheme backend setup) (.inner kids) = some p ∧
    rootNode tree = some root ∧ root.commitmentToChildren = some p ∧
    ObjectOf (kzgScheme backend setup) tree.disk.db root (.inner kids) := by
  obtain ⟨id, p, standing, _, _⟩ := grown.held
  exact ⟨p, _, by rw [nodePoint_inner, standing.point], by rw [rootNode, standing.root]; rfl,
    standing.commitment, standing_object standing⟩

variable [NeZero (kzgScheme backend setup).width]

theorem getProofTree_ok (key : Word) : getProofTree (kzgScheme backend setup) tree key.bytes =
    .ok (proofOf (kzgScheme backend setup) (.inner kids)
      (stemOf (kzgScheme backend setup).width key)) := by
  have lawful := ready_lawful grown.faithful grown.ready
  have aligned : Aligned (kzgScheme backend setup).width bits := grown.ready.aligned
  obtain ⟨p, root, _, known, _, object⟩ := grown_root grown
  have points := proofFrom_points lawful grown.valid (stemOf (kzgScheme backend setup).width key)
    object (rooted_fits grown.rooted aligned.toCuts key) (walkLimit_enough tree.disk.db)
  simp only [getProofTree, splitKey_ok aligned.toCuts key, known, points, bind, Except.bind, proofOf]

def keyStations (backend : Backend Point G1 G2 FQ12) (setup : SetupObject G1 G2)
    [NeZero (kzgScheme backend setup).width]
    (kids : Fin (kzgScheme backend setup).width → Trie (kzgScheme backend setup).width)
    (key : Word) : List (Station Point) :=
  stations (kzgScheme backend setup) (.inner kids) (stemOf (kzgScheme backend setup).width key)
    (suffixOf (kzgScheme backend setup).width key)

noncomputable def keyOpenings (backend : Backend Point G1 G2 FQ12) (setup : SetupObject G1 G2)
    [NeZero (kzgScheme backend setup).width] (w : ZMod CURVE_ORDER) (k : Nat) (rootBytes : Bytes)
    (kids : Fin (kzgScheme backend setup).width → Trie (kzgScheme backend setup).width)
    (key : Word) : List (Opening (ZMod CURVE_ORDER) (ZMod CURVE_ORDER)[X]) :=
  openingsFrom w (2 ^ k) (factorAt backend.sha256 rootBytes (pathOf setup.width key.bytes)) 0
    (keyStations backend setup kids key)

/-- What a tree holds under a key. -/
def stored (backend : Backend Point G1 G2 FQ12) (setup : SetupObject G1 G2)
    [NeZero (kzgScheme backend setup).width]
    (kids : Fin (kzgScheme backend setup).width → Trie (kzgScheme backend setup).width)
    (key : Word) : Option Word :=
  StemTree.lookup (.inner kids) (stemOf (kzgScheme backend setup).width key)
    (suffixOf (kzgScheme backend setup).width key)

theorem keyStations_length (key : Word) : (keyStations backend setup kids key).length ≤ 258 := by
  have aligned : Aligned (kzgScheme backend setup).width bits := grown.ready.aligned
  have bound := stations_length (kzgScheme backend setup) (.inner kids)
    (stemOf (kzgScheme backend setup).width key) (suffixOf (kzgScheme backend setup).width key)
  have size := stemOf_length aligned.toCuts key
  have few := Nat.div_le_self 256 (kzgScheme backend setup).width.log2
  rw [depth] at size
  rw [keyStations]
  omega

/-- As many commitments as stations, but for the root. -/
theorem proofOf_length {key : Word} (found : stored backend setup kids key ≠ none) :
    (proofOf (kzgScheme backend setup) (.inner kids)
      (stemOf (kzgScheme backend setup).width key)).length + 1 =
        (keyStations backend setup kids key).length := by
  have lawful := ready_lawful grown.faithful grown.ready
  obtain ⟨ps, points⟩ := station_known lawful (ready_narrow grown.ready) (.inner kids)
    (stemOf (kzgScheme backend setup).width key) (suffixOf (kzgScheme backend setup).width key)
  have two := lands_stations (kzgScheme backend setup) (lookup_lands found)
    (suffixOf (kzgScheme backend setup).width key)
  have sizes := congrArg List.length points
  rw [List.length_map, List.length_map] at sizes
  rw [proofOf, proofPoints_stations found, points, ← List.map_drop, List.filterMap_map]
  simp only [Function.comp_def, id_eq, List.filterMap_some, List.length_drop]
  rw [keyStations, sizes]
  omega

omit [NeZero (kzgScheme backend setup).width] in
theorem grown_rootCommitment :
    rootCommitment tree = nodePoint (kzgScheme backend setup) (.inner kids) := by
  obtain ⟨p, root, point, known, commitment, _⟩ := grown_root grown
  rw [rootCommitment, known, Option.bind_some, commitment, point]

theorem grown_get (key : Word) : VerkleTrees.get (kzgScheme backend setup) tree key.bytes =
    .ok ((stored backend setup kids key).map fun v => ofBytes v.bytes) :=
  get_lookup (ready_lawful grown.faithful grown.ready) grown.ready.aligned.toCuts (Or.inr grown.held)
    grown.rooted grown.valid key

theorem openKey_ok (rootBytes : Bytes) {key : Word} (found : stored backend setup kids key ≠ none)
    {root : TreeNode Point}
    (object : ObjectOf (kzgScheme backend setup) tree.disk.db root (.inner kids))
    {total : List Int} (totals : Totals (2 ^ k) total) :
    ∃ more, openKey backend setup tree.disk.db rootBytes root total (key.bytes,
        proofOf (kzgScheme backend setup) (.inner kids) (stemOf (kzgScheme backend setup).width key),
        pathOf setup.width key.bytes) = .ok more ∧ Totals (2 ^ k) more ∧
      lifted w (2 ^ k) more = lifted w (2 ^ k) total +
        Openings.total w (2 ^ k) X (keyOpenings backend setup w k rootBytes kids key) := by
  have lawful := ready_lawful grown.faithful grown.ready
  obtain ⟨chunks, cut, last, front⟩ := chunks_ok backend grown.ready key
  have few := keyStations_length grown key
  have enough : (keyStations backend setup kids key).length ≤ (proofOf (kzgScheme backend setup)
      (.inner kids) (stemOf (kzgScheme backend setup).width key)).length + 1 :=
    Nat.le_of_eq (proofOf_length grown found).symm
  have shallow : 0 + (keyStations backend setup kids key).length ≤ 256 ^ 2 :=
    Nat.le_trans (Nat.add_le_add_left few 0) (by decide)
  obtain ⟨more, run, totals', poly⟩ := openNodes_ok lawful grown.ready grown.valid rootBytes
    (pathOf_ok grown.ready key.bytes).2 (suffixOf (kzgScheme backend setup).width key)
    (lookup_lands found) object enough shallow totals
  refine ⟨more, ?_, totals', poly⟩
  simp only [openKey, cut, last, front, bind, Except.bind]
  exact run

/-- The prover is a loop over the keys, each with its commitments and its path. -/
theorem aggregate_loop (keys : List Word) :
    ∃ p root rootBytes, nodePoint (kzgScheme backend setup) (.inner kids) = some p ∧
      rootNode tree = some root ∧ root.commitmentToChildren = some p ∧
      ObjectOf (kzgScheme backend setup) tree.disk.db root (.inner kids) ∧
      backend.format.generateRootBytes p = .ok rootBytes ∧
      (∃ r, deriveR backend.sha256 rootBytes (keys.map fun key => pathOf setup.width key.bytes)
        CURVE_ORDER = .ok r) ∧
      aggregate backend setup tree (keys.map Word.bytes) =
        keys.foldlM (fun total key => openKey backend setup tree.disk.db rootBytes root total
          (key.bytes, proofOf (kzgScheme backend setup) (.inner kids)
            (stemOf (kzgScheme backend setup).width key), pathOf setup.width key.bytes))
          (List.replicate setup.width 0) >>= fun total => .ok (keys.map fun key =>
            proofOf (kzgScheme backend setup) (.inner kids)
              (stemOf (kzgScheme backend setup).width key), total) := by
  obtain ⟨p, root, point, known, commitment, object⟩ := grown_root grown
  obtain ⟨rootBytes, bytes⟩ := grown.faithful.root_bytes p
  have proofs := mapM_map_ok (l := keys) (h := Word.bytes) fun key _ => getProofTree_ok grown key
  have paths := mapM_map_ok (l := keys) (h := Word.bytes)
    fun key _ => (pathOf_ok grown.ready key.bytes).1
  obtain ⟨r, derived⟩ := deriveR_ok backend.sha256 rootBytes
    (keys.map fun key => pathOf setup.width key.bytes) (by
      intro path member
      obtain ⟨key, _, rfl⟩ := List.mem_map.mp member
      exact (pathOf_ok grown.ready key.bytes).2) CURVE_ORDER
  refine ⟨p, root, rootBytes, point, known, commitment, object, bytes, ⟨r, derived⟩, ?_⟩
  have zipped : (keys.map Word.bytes).zip ((keys.map fun key => proofOf (kzgScheme backend setup)
      (.inner kids) (stemOf (kzgScheme backend setup).width key)).zip
        (keys.map fun key => pathOf setup.width key.bytes)) = keys.map fun key => (key.bytes,
      proofOf (kzgScheme backend setup) (.inner kids) (stemOf (kzgScheme backend setup).width key),
      pathOf setup.width key.bytes) := by
    rw [List.zip_map', List.zip_map']
  simp only [aggregate, known, proofs, paths, commitment, bytes, derived, bind, Except.bind, zipped,
    List.foldlM_map]

/-- The polynomial of a proof: the true openings of all keys. -/
theorem aggregate_ok (keys : List Word) (found : ∀ key ∈ keys, stored backend setup kids key ≠ none) :
    ∃ p rootBytes total, nodePoint (kzgScheme backend setup) (.inner kids) = some p ∧
      backend.format.generateRootBytes p = .ok rootBytes ∧
      aggregate backend setup tree (keys.map Word.bytes) = .ok (keys.map fun key =>
        proofOf (kzgScheme backend setup) (.inner kids)
          (stemOf (kzgScheme backend setup).width key), total) ∧
      Totals (2 ^ k) total ∧ lifted w (2 ^ k) total = (keys.map fun key =>
        Openings.total w (2 ^ k) X (keyOpenings backend setup w k rootBytes kids key)).sum := by
  obtain ⟨p, root, rootBytes, point, _, _, object, bytes, _, loop⟩ := aggregate_loop grown keys
  obtain ⟨total, run, totals, poly⟩ := foldlM_adds (Totals (2 ^ k)) (lifted w (2 ^ k)) (l := keys)
    (f := fun total (key : Word) => openKey backend setup tree.disk.db rootBytes root total (key.bytes,
      proofOf (kzgScheme backend setup) (.inner kids) (stemOf (kzgScheme backend setup).width key),
      pathOf setup.width key.bytes))
    (fun key member total totals => openKey_ok grown rootBytes (found key member) object totals)
    (totals_zero (2 ^ k))
  refine ⟨p, rootBytes, total, point, bytes, ?_, totals, ?_⟩
  · rw [← grown.ready.lays.size] at run
    rw [loop, run]
    rfl
  · rw [poly, lifted_zero grown.ready.lays.primitive, zero_add]

end Keys

theorem run_grown (backend : Backend Point G1 G2 FQ12) {setup : SetupObject G1 G2} {k bits : Nat}
    {w : ZMod CURVE_ORDER} [NeZero (kzgScheme backend setup).width]
    (faithful : Faithful backend.format) (ready : Ready setup k w bits) {run : List (Word × Word)}
    (some : run ≠ []) (valid : (insertRun (kzgScheme backend setup) run).2.disk.db.Consistent) :
    ∃ kids, Grown backend setup k w bits (insertRun (kzgScheme backend setup) run).2 kids ∧
      treeOf (kzgScheme backend setup).width run = .inner kids ∧
      (∀ key, stored backend setup kids key = lastInserted run key) ∧
      rootCommitment (insertRun (kzgScheme backend setup) run).2 =
        nodePoint (kzgScheme backend setup) (.inner kids) := by
  have lawful := ready_lawful faithful ready
  have aligned : Aligned (kzgScheme backend setup).width bits := ready.aligned
  obtain ⟨_, kids, follows⟩ := run_follows lawful aligned.toCuts (ready_words ready run) valid
  have held := follows.holding
  rw [if_neg some] at held
  refine ⟨kids, ⟨faithful, ready, held, follows.rooted, valid⟩, follows.tree, fun key => ?_,
    (follows_root follows some).1⟩
  rw [stored, ← follows.tree]
  exact treeOf_lookup aligned run key

theorem lastInserted_member {run : List (Word × Word)} {key value : Word}
    (inserted : lastInserted run key = some value) : (key, value) ∈ run := by
  obtain ⟨e, found, rfl⟩ := Option.map_eq_some_iff.mp inserted
  have same : e.1 = key := by simpa using List.find?_some found
  have member := List.mem_of_find?_eq_some found
  rw [List.mem_reverse] at member
  exact same ▸ member

theorem inserted_run {run : List (Word × Word)} {keys : List Word} (occupied : keys ≠ [])
    (inserted : ∀ key ∈ keys, lastInserted run key ≠ none) : run ≠ [] := by
  intro none
  obtain ⟨key, member⟩ := List.exists_mem_of_ne_nil keys occupied
  exact inserted key member (by rw [none]; rfl)

end VerkleOpenings
