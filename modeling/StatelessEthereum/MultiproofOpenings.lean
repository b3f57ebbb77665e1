import StatelessEthereum.VerkleMultiproof
import StatelessEthereum.VerkleCompleteness

/- What the prover of the multiproof meets on the way of a key, whether the key
   is in the tree or not, and what it adds up over all keys. -/
namespace MultiproofOpenings
open Polynomial PythonError BigEndian PutLog EvaluationDomain Fft PolyUtils KzgSetup KzgScheme
open CommitmentScheme HashScheme IdealCurve Openings VerkleOpenings VerkleChecks VerkleCompleteness
open Grouping VerkleMultiproof
open VerkleProof (addOpening arrayValues extensionValues generateWitness)
open VerkleTrees hiding insert get getKeyChunks
open VerkleSerialization
open StemTree hiding insert lookup
open VerkleStorage VerkleKey VerkleRuns VerkleRefinement
variable {Point G1 G2 FQ12 : Type}

structure Visit (Point : Type) where
  commitment : Point
  node : TreeNode Point
  idx : Nat

structure Stands (setup : SetupObject G1 G2) (visit : Visit Point) (station : Station Point) : Prop where
  point : station.point = some visit.commitment
  type : visit.node.type = station.type
  values : nodeValues setup visit.node = .ok station.values
  index : visit.idx = station.index
  child : ∃ child, childAt visit.node visit.idx = .ok child ∧ station.leaf = childValue child

/-- What a pass does with the nodes it visits, the first at a depth. -/
def visitAll {σ : Type} (enter : Point → TreeNode Point → σ → Except PyError σ)
    (opened : Point → TreeNode Point → Nat → Nat → σ → Except PyError σ) :
    Nat → List (Visit Point) → σ → Except PyError σ
  | _, [], state => .ok state
  | depth, visit :: rest, state => do
    let state ← enter visit.commitment visit.node state
    let state ← opened visit.commitment visit.node visit.idx depth state
    visitAll enter opened (depth + 1) rest state

theorem bind_ok_self {ε α : Type} (x : Except ε α) : x >>= Except.ok = x := by
  cases x with
  | error e => rfl
  | ok a => rfl

section Walk
variable {backend : Backend Point G1 G2 FQ12} {setup : SetupObject G1 G2}
  {k bits : Nat} {w : ZMod CURVE_ORDER}

theorem word_occupied (v : Word) : ∃ b rest, v.bytes = b :: rest := by
  cases bytes : v.bytes with
  | nil =>
    have size := v.size
    simp [bytes] at size
  | cons b rest => exact ⟨b, rest, rfl⟩

variable (backend setup) in
/-- How a walk goes on with what is at the place of a child. -/
def follow {σ : Type} (db : Store Bytes Bytes) (next : TreeNode Point → σ → Except PyError σ)
    (state : σ) : Option Bytes → Except PyError σ
  | none | some [] => .ok state
  | some childRef => do
    let node ← makeTreeNode (kzgScheme backend setup) db (some childRef)
    next node state

theorem walk_visits (lawful : Lawful (kzgScheme backend setup)) (ready : Ready setup k w bits)
    {db : Store Bytes Bytes} (valid : db.Consistent) {stem : List Nat}
    (x : Fin (kzgScheme backend setup).width) {t : Trie (kzgScheme backend setup).width}
    {digits : List (Fin (kzgScheme backend setup).width)} {depth : Nat}
    (here : stem.drop depth = digits.map Fin.val) {node : TreeNode Point}
    (object : ObjectOf (kzgScheme backend setup) db node t) (fits : Fits t digits.length)
    {limit : Nat} (enough : digits.length + 2 ≤ limit) :
    ∃ visits, List.Forall₂ (Stands setup) visits (stations (kzgScheme backend setup) t digits x) ∧
      ∀ {σ : Type} (enter : Point → TreeNode Point → σ → Except PyError σ)
        (opened : Point → TreeNode Point → Nat → Nat → σ → Except PyError σ) (state : σ),
        walk backend setup enter opened db stem x.val limit depth node state =
          visitAll enter opened depth visits state := by
  have narrow : (kzgScheme backend setup).width ≤ 256 := ready_narrow ready
  induction t generalizing digits depth node limit with
  | empty => cases object
  | group own slots =>
    cases object with
    | group typed covers holds commitment stored named =>
      obtain ⟨limit, rfl⟩ := Nat.exists_eq_add_of_le enough
      obtain ⟨q, point', _, loads⟩ := suffix_loads lawful valid stored named
      obtain ⟨p, point, _⟩ := commit_extension lawful (narrow_stem narrow own)
        (suffixRef (kzgScheme backend setup) slots)
      have own_point : node.commitmentToChildren = some p := commitment.trans point
      have bytes : bytesOf node.stem = .ok (stemBytes own) := by
        rw [covers, bytesOf_ok (narrow_chunks (narrow_stem narrow own)), stemBytes, List.map_map]
        rfl
      obtain ⟨b, rest, shape⟩ := word_occupied ‹Word›
      refine ⟨[⟨p, node, 2⟩, ⟨q, arrayNode (kzgScheme backend setup) .suffix slots q, x.val⟩],
        .cons ⟨point, typed, ?_, rfl, node.child, ?_, ?_⟩
          (.cons ⟨point', rfl, rfl, rfl, _, childList_get slots x, leaf_array .suffix slots x⟩ .nil), ?_⟩
      · simp only [nodeValues, typed, bytes, bind, Except.bind, extensionStation, named, holds]
        rfl
      · simp only [childAt, typed]
      · rw [holds, named]
        rfl
      · intro σ enter opened state
        rw [shape] at loads
        rw [show digits.length + 2 + limit = (digits.length + limit) + 1 + 1 by omega]
        simp only [walk, own_point, typed, holds, shape, visitAll]
        refine bind_congr fun state => bind_congr fun state => ?_
        rw [loads]
        let suffixNode := arrayNode (kzgScheme backend setup) .suffix slots q
        change (enter q suffixNode state >>= fun state => opened q suffixNode x.val (depth + 1) state) = _
        exact bind_congr fun state => (bind_ok_self _).symm
  | inner kids ih =>
    cases object with
    | inner typed children commitment written =>
      obtain ⟨m, size, below⟩ := fits
      cases digits with
      | nil => simp at size
      | cons i digits =>
        simp only [List.length_cons, Nat.add_right_cancel_iff] at size enough
        obtain ⟨limit, rfl⟩ := Nat.exists_eq_add_of_le enough
        obtain ⟨p, point, _⟩ := commit_childList lawful (refs (kzgScheme backend setup) kids)
        have own_point : node.commitmentToChildren = some p := commitment.trans point
        have chunk : stem[depth]? = some i.val := by
          rw [← List.head?_drop, here]
          rfl
        have further : stem.drop (depth + 1) = digits.map Fin.val := by
          rw [← List.drop_drop, here]
          rfl
        have get := childList_get (refs (kzgScheme backend setup) kids) i
        have first : Stands setup ⟨p, node, i.val⟩ (arrayStation (kzgScheme backend setup) .internal
            (refs (kzgScheme backend setup) kids) i) := by
          refine ⟨point, typed, ?_, rfl, _, ?_, leaf_array .internal _ i⟩
          · simp only [nodeValues, typed, children, arrayStation]
          · simp only [childAt, typed, children, get, entry_words]
        have turn {σ : Type} (enter : Point → TreeNode Point → σ → Except PyError σ)
            (opened : Point → TreeNode Point → Nat → Nat → σ → Except PyError σ)
            (visits : List (Visit Point)) (step : ∀ state, follow backend setup db
              (walk backend setup enter opened db stem x.val (digits.length + 2 + limit) (depth + 1))
              state ((refs (kzgScheme backend setup) kids i).map Word.bytes) =
                visitAll enter opened (depth + 1) visits state) (state : σ) :
            walk backend setup enter opened db stem x.val (digits.length + 1 + 2 + limit) depth node
              state = visitAll enter opened depth (⟨p, node, i.val⟩ :: visits) state := by
          rw [show digits.length + 1 + 2 + limit = (digits.length + 2 + limit) + 1 by omega]
          simp only [walk, own_point, typed, chunk, visitAll]
          refine bind_congr fun state => bind_congr fun state => ?_
          rw [children, get]
          exact step state
        by_cases gone : kids i = .empty
        · refine ⟨[⟨p, node, i.val⟩], ?_, fun enter opened state => turn enter opened [] ?_ state⟩
          · rw [stations, gone]
            exact .cons first .nil
          · intro state
            rw [refs, gone, refOf_empty]
            rfl
        · obtain ⟨ref, next, named, loads, object'⟩ := written_loads lawful valid gone (written i)
          obtain ⟨visits, stand, runs⟩ := ih i further object' (size ▸ below i)
            (Nat.le_add_right (digits.length + 2) limit)
          obtain ⟨b, rest, shape⟩ := word_occupied ref
          refine ⟨⟨p, node, i.val⟩ :: visits, .cons first stand,
            fun enter opened state => turn enter opened visits ?_ state⟩
          intro state
          rw [refs, named, Option.map_some, shape]
          rw [shape] at loads
          simp only [follow, loads]
          exact runs enter opened state

/- Pass 1. -/

/-- The stations of a key under their commitments, the first at a depth. -/
def gather [DecidableEq Point] (keyIdx : Nat) :
    Nat → List (Station Point) → NodesMap Point → NodesMap Point
  | _, [], nodesMap => nodesMap
  | depth, station :: rest, nodesMap => gather keyIdx (depth + 1) rest
      (match station.point with
      | none => nodesMap
      | some p => attach p ⟨station.index, keyIdx, depth⟩ (enroll p station.values nodesMap))

def openedFrom (keyIdx : Nat) : Nat → List (Station Point) → List (List Int × NodeOpening)
  | _, [] => []
  | depth, station :: rest =>
    (station.values, ⟨station.index, keyIdx, depth⟩) :: openedFrom keyIdx (depth + 1) rest

theorem collect_gathers [DecidableEq Point] (keyIdx : Nat) {visits : List (Visit Point)}
    {stops : List (Station Point)} (stand : List.Forall₂ (Stands setup) visits stops) (depth : Nat)
    (nodesMap : NodesMap Point) :
    visitAll (enterNode setup)
        (fun commitment _ idx depth nodesMap => .ok (attach commitment ⟨idx, keyIdx, depth⟩ nodesMap))
        depth visits nodesMap = .ok (gather keyIdx depth stops nodesMap) := by
  induction stand generalizing depth nodesMap with
  | nil => rfl
  | @cons visit station visits stops here _ ih =>
    have entered : enterNode setup visit.commitment visit.node nodesMap =
        .ok (enroll visit.commitment station.values nodesMap) := by
      by_cases known : visit.commitment ∈ names nodesMap
      · rw [enterNode, if_pos known, enroll, if_pos known]
      · rw [enterNode, if_neg known, here.values]
        rfl
    rw [visitAll, entered, gather, here.point, ← here.index]
    exact ih (depth + 1) _

/-- What the database holds under a commitment, as the vector committed to. -/
def contentValues (width : Nat) : AnyNode Point → List Int
  | .array _ _ children => arrayValues children
  | .extension _ stem childHash => extensionValues width stem (some childHash)

def Told (backend : Backend Point G1 G2 FQ12) (setup : SetupObject G1 G2) (db : Store Bytes Bytes)
    (p : Point) (values : List Int) : Prop :=
  ∃ content, Holds (kzgScheme backend setup) db p content ∧ contentValues setup.width content = values

theorem told_unique {db : Store Bytes Bytes} (valid : db.Consistent) {p : Point}
    {values other : List Int} (told : Told backend setup db p values)
    (told' : Told backend setup db p other) : other = values := by
  obtain ⟨content, ⟨encoded, member, loads⟩, rfl⟩ := told
  obtain ⟨content', ⟨encoded', member', loads'⟩, rfl⟩ := told'
  rw [valid _ _ _ member' member, loads] at loads'
  cases loads'
  rfl

theorem stations_told {db : Store Bytes Bytes} {t : Trie (kzgScheme backend setup).width}
    (written : Written db t) (digits : List (Fin (kzgScheme backend setup).width))
    (x : Fin (kzgScheme backend setup).width) :
    ∀ station ∈ stations (kzgScheme backend setup) t digits x, ∀ p, station.point = some p →
      Told backend setup db p station.values := by
  induction t generalizing digits with
  | empty => simp [stations]
  | group stem slots =>
    obtain ⟨_, ⟨q, point', holds'⟩, child, named, p, point, holds⟩ := written
    intro station member r known
    simp only [stations, List.mem_cons, List.not_mem_nil, or_false] at member
    rcases member with rfl | rfl
    · rw [extensionStation, named, point] at known
      cases known
      exact ⟨_, holds, by rw [contentValues, extensionStation, named]; rfl⟩
    · rw [arrayStation, point'] at known
      cases known
      exact ⟨_, holds', rfl⟩
  | inner kids ih =>
    obtain ⟨⟨p, point, holds⟩, below⟩ := written
    cases digits with
    | nil => simp [stations]
    | cons i digits =>
      intro station member r known
      rw [stations, List.mem_cons] at member
      rcases member with rfl | later
      · rw [arrayStation, point] at known
        cases known
        exact ⟨_, holds, rfl⟩
      · exact ih i (below i) digits station later r known

end Walk

section Gather
variable [DecidableEq Point] {keyIdx depth : Nat} {stops : List (Station Point)}
  {nodesMap : NodesMap Point}

theorem gather_names (keyIdx depth : Nat) (stops : List (Station Point)) (nodesMap : NodesMap Point)
    (p : Point) : p ∈ names (gather keyIdx depth stops nodesMap) ↔
      p ∈ names nodesMap ∨ some p ∈ stops.map Station.point := by
  induction stops generalizing depth nodesMap with
  | nil => simp [gather]
  | cons station stops ih =>
    rw [gather, ih, List.map_cons, List.mem_cons]
    cases station.point with
    | none => simp
    | some q => rw [attach_names, enroll_member, or_assoc, Option.some.injEq]

theorem gather_coherent {tells : Point → List Int → Prop} (coherent : Coherent tells nodesMap)
    (told : ∀ station ∈ stops, ∀ p, station.point = some p → tells p station.values) :
    Coherent tells (gather keyIdx depth stops nodesMap) := by
  induction stops generalizing depth nodesMap with
  | nil => exact coherent
  | cons station stops ih =>
    have rest := fun other member => told other (List.mem_cons_of_mem station member)
    have here := told station List.mem_cons_self
    rw [gather]
    cases point : station.point with
    | none => exact ih coherent rest
    | some p => exact ih (attach_coherent (enroll_coherent coherent (here p point)) p _) rest

/-- Nothing is lost, and nothing is opened in a vector of another node. -/
theorem gather_weight {M : Type} [AddCommMonoid M] (f : List Int → NodeOpening → M)
    {tells : Point → List Int → Prop}
    (unique : ∀ p values other, tells p values → tells p other → other = values)
    (coherent : Coherent tells nodesMap)
    (told : ∀ station ∈ stops, ∃ p, station.point = some p ∧ tells p station.values) :
    weight f (gather keyIdx depth stops nodesMap) =
      weight f nodesMap + ((openedFrom keyIdx depth stops).map fun e => f e.1 e.2).sum := by
  induction stops generalizing depth nodesMap with
  | nil => simp [gather, openedFrom]
  | cons station stops ih =>
    obtain ⟨p, point, here⟩ := told station List.mem_cons_self
    have rest := fun other member => told other (List.mem_cons_of_mem station member)
    have enrolled := enroll_coherent coherent here
    have present : p ∈ names (enroll p station.values nodesMap) :=
      (enroll_member p station.values nodesMap p).mpr (Or.inr rfl)
    rw [gather, point, ih (attach_coherent enrolled p _) rest,
      attach_weight f enrolled (fun other => unique p station.values other here) present,
      enroll_weight, openedFrom, List.map_cons, List.sum_cons, add_assoc]

theorem gather_items {good : NodeOpening → Prop}
    (fine : ∀ g ∈ nodesMap, ∀ o ∈ g.items, good o)
    (opened : ∀ e ∈ openedFrom keyIdx depth stops, good e.2) :
    ∀ g ∈ gather keyIdx depth stops nodesMap, ∀ o ∈ g.items, good o := by
  induction stops generalizing depth nodesMap with
  | nil => exact fine
  | cons station stops ih =>
    obtain ⟨here, rest⟩ := List.forall_mem_cons.mp opened
    rw [gather]
    cases station.point with
    | none => exact ih fine rest
    | some p => exact ih (attach_items (enroll_items fine p station.values) p here) rest

end Gather

/-- An opening of a key at a point of the domain and a level that can be hashed. -/
structure Placed (n : Nat) (paths : List (List Nat)) (o : NodeOpening) : Prop where
  inside : o.idx < n
  known : o.keyIdx < paths.length
  shallow : o.depth < 256 ^ 2

theorem openedFrom_placed {n keyIdx depth : Nat} {paths : List (List Nat)}
    {stops : List (Station Point)} (known : keyIdx < paths.length)
    (fit : ∀ station ∈ stops, station.values.length = n ∧ station.index < n)
    (shallow : depth + stops.length ≤ 256 ^ 2) :
    ∀ e ∈ openedFrom keyIdx depth stops, Placed n paths e.2 := by
  induction stops generalizing depth with
  | nil => exact fun e member => absurd member List.not_mem_nil
  | cons station stops ih =>
    rw [List.length_cons] at shallow
    obtain ⟨here, rest⟩ := List.forall_mem_cons.mp fit
    rw [openedFrom, List.forall_mem_cons]
    exact ⟨⟨here.2, known, show depth < 256 ^ 2 by omega⟩, ih rest (by omega)⟩

/- The openings of all commitments. -/
section Groups
variable [DecidableEq Point] {backend : Backend Point G1 G2 FQ12} {setup : SetupObject G1 G2}
  {k bits : Nat} {w : ZMod CURVE_ORDER}

noncomputable def openingTerm (backend : Backend Point G1 G2 FQ12) (w : ZMod CURVE_ORDER) (n : Nat)
    (rootBytes : Bytes) (paths : List (List Nat)) (values : List Int) (o : NodeOpening) :
    (ZMod CURVE_ORDER)[X] :=
  (trueOpening w n (factorAt backend.sha256 rootBytes (paths[o.keyIdx]?.getD []) o.depth)
    (residues values) o.idx).term w n X

variable (ready : Ready setup k w bits) (rootBytes : Bytes) {paths : List (List Nat)}
  (small : ∀ path ∈ paths, ∀ i ∈ path, i < 256 ^ 2)
include ready small

theorem openGroup_ok (root : Point) {node : Group Point (List Int) NodeOpening}
    (size : node.data.length = 2 ^ k) (placed : ∀ o ∈ node.items, Placed (2 ^ k) paths o)
    (commitments : List Point) {total : List Int} (totals : Totals (2 ^ k) total) :
    ∃ more, openGroup backend setup root rootBytes paths (commitments, total) node =
        .ok (if node.name = root then commitments else commitments ++ [node.name], more) ∧
      Totals (2 ^ k) more ∧ lifted w (2 ^ k) more = lifted w (2 ^ k) total +
        (node.items.map (openingTerm backend w (2 ^ k) rootBytes paths node.data)).sum := by
  have each : ∀ o ∈ node.items, ∀ total, Totals (2 ^ k) total → ∃ more,
      openAt backend setup rootBytes paths node.data total o = .ok more ∧ Totals (2 ^ k) more ∧
      lifted w (2 ^ k) more = lifted w (2 ^ k) total +
        openingTerm backend w (2 ^ k) rootBytes paths node.data o := by
    intro o member total totals
    obtain ⟨inside, known, shallow⟩ := placed o member
    have path := List.getElem?_eq_getElem known
    obtain ⟨more, run, totals', poly⟩ := addOpening_ok backend ready.lays rootBytes
      (small _ (List.getElem_mem known)) shallow size inside totals
    refine ⟨more, by simp only [openAt, path, run], totals', ?_⟩
    rw [poly, openingTerm, path, Option.getD_some]
  obtain ⟨more, run, totals', poly⟩ := foldlM_adds (Totals (2 ^ k)) (lifted w (2 ^ k)) each totals
  exact ⟨more, by simp only [openGroup, run, bind, Except.bind], totals', poly⟩

theorem openGroups_ok (root : Point) {nodesMap : NodesMap Point}
    (size : ∀ node ∈ nodesMap, node.data.length = 2 ^ k)
    (placed : ∀ node ∈ nodesMap, ∀ o ∈ node.items, Placed (2 ^ k) paths o)
    (commitments : List Point) {total : List Int} (totals : Totals (2 ^ k) total) :
    ∃ more, nodesMap.foldlM (openGroup backend setup root rootBytes paths) (commitments, total) =
        .ok (commitments ++ (names nodesMap).filter (· ≠ root), more) ∧
      Totals (2 ^ k) more ∧ lifted w (2 ^ k) more = lifted w (2 ^ k) total +
        weight (openingTerm backend w (2 ^ k) rootBytes paths) nodesMap := by
  induction nodesMap generalizing commitments total with
  | nil => exact ⟨total, by simp [names]; rfl, totals, by simp [weight]⟩
  | cons node nodesMap ih =>
    obtain ⟨first, run, totals', poly⟩ := openGroup_ok ready rootBytes small root
      (size node List.mem_cons_self) (placed node List.mem_cons_self) commitments totals
    obtain ⟨more, runs, totals'', polys⟩ := ih
      (fun other member => size other (List.mem_cons_of_mem _ member))
      (fun other member => placed other (List.mem_cons_of_mem _ member))
      (if node.name = root then commitments else commitments ++ [node.name]) totals'
    refine ⟨more, ?_, totals'', ?_⟩
    · rw [List.foldlM_cons, run]
      refine runs.trans ?_
      rw [names, names, List.map_cons, List.filter_cons]
      by_cases same : node.name = root <;> simp [same]
    · rw [polys, poly, add_assoc]
      rfl

end Groups

/- All keys. -/
section Keys
variable {backend : Backend Point G1 G2 FQ12} {setup : SetupObject G1 G2}
  {k bits : Nat} {w : ZMod CURVE_ORDER} {tree : VerkleTree Point}
  {kids : Fin (kzgScheme backend setup).width → Trie (kzgScheme backend setup).width}
  [NeZero (kzgScheme backend setup).width]

/-- A vector as long as the domain that the database has under a commitment. -/
def ToldFull (backend : Backend Point G1 G2 FQ12) (setup : SetupObject G1 G2) (db : Store Bytes Bytes)
    (n : Nat) (p : Point) (values : List Int) : Prop :=
  Told backend setup db p values ∧ values.length = n

variable (grown : Grown backend setup k w bits tree kids)

section Walks
include grown

theorem key_told (key : Word) : ∀ station ∈ keyStations backend setup kids key,
    ∃ p, station.point = some p ∧ ToldFull backend setup tree.disk.db (2 ^ k) p station.values := by
  intro station member
  obtain ⟨id, p, standing, _, _⟩ := grown.held
  obtain ⟨ps, points⟩ := station_known (ready_lawful grown.faithful grown.ready)
    (ready_narrow grown.ready) (.inner kids) (stemOf (kzgScheme backend setup).width key)
    (suffixOf (kzgScheme backend setup).width key)
  have listed : station.point ∈ ps.map some := points ▸ List.mem_map_of_mem member
  obtain ⟨q, _, point⟩ := List.mem_map.mp listed
  have written : Written tree.disk.db (.inner kids) := ⟨standing.stored, standing.shows.written⟩
  exact ⟨q, point.symm, stations_told written _ _ station member q point.symm,
    (stations_fit backend grown.ready _ _ _ station member).1⟩

theorem walkKey_visits {root : TreeNode Point}
    (object : ObjectOf (kzgScheme backend setup) tree.disk.db root (.inner kids)) (key : Word) :
    ∃ visits, List.Forall₂ (Stands setup) visits (keyStations backend setup kids key) ∧
      ∀ {σ : Type} (enter : Point → TreeNode Point → σ → Except PyError σ)
        (opened : Point → TreeNode Point → Nat → Nat → σ → Except PyError σ) (state : σ),
        walkKey backend setup enter opened tree.disk.db root key.bytes state =
          visitAll enter opened 0 visits state := by
  have aligned : Aligned (kzgScheme backend setup).width bits := grown.ready.aligned
  obtain ⟨chunks, cut, last, front⟩ := chunks_ok backend grown.ready key
  obtain ⟨visits, stand, runs⟩ := walk_visits (ready_lawful grown.faithful grown.ready) grown.ready
    grown.valid (suffixOf (kzgScheme backend setup).width key)
    (show ((stemOf (kzgScheme backend setup).width key).map Fin.val).drop 0 = _ from rfl) object
    (rooted_fits grown.rooted aligned.toCuts key) (walkLimit_enough tree.disk.db)
  refine ⟨visits, stand, fun enter opened state => ?_⟩
  simp only [walkKey, cut, last, front, bind, Except.bind]
  exact runs enter opened state

end Walks

variable [DecidableEq Point]

def gatherKeys (backend : Backend Point G1 G2 FQ12) (setup : SetupObject G1 G2)
    [NeZero (kzgScheme backend setup).width]
    (kids : Fin (kzgScheme backend setup).width → Trie (kzgScheme backend setup).width)
    (keys : List (Word × Nat)) (nodesMap : NodesMap Point) : NodesMap Point :=
  keys.foldl (fun nodesMap key => gather key.2 0 (keyStations backend setup kids key.1) nodesMap)
    nodesMap

theorem gatherKeys_names (keys : List (Word × Nat)) (nodesMap : NodesMap Point) (p : Point) :
    p ∈ names (gatherKeys backend setup kids keys nodesMap) ↔ p ∈ names nodesMap ∨
      ∃ key ∈ keys, some p ∈ (keyStations backend setup kids key.1).map Station.point := by
  induction keys generalizing nodesMap with
  | nil => simp [gatherKeys]
  | cons key keys ih =>
    rw [gatherKeys, List.foldl_cons]
    refine (ih _).trans ?_
    rw [gather_names, List.exists_mem_cons_iff, or_assoc]

include grown

theorem gatherKeys_coherent {keys : List (Word × Nat)} {nodesMap : NodesMap Point}
    (coherent : Coherent (ToldFull backend setup tree.disk.db (2 ^ k)) nodesMap) :
    Coherent (ToldFull backend setup tree.disk.db (2 ^ k))
      (gatherKeys backend setup kids keys nodesMap) := by
  induction keys generalizing nodesMap with
  | nil => exact coherent
  | cons key keys ih =>
    refine ih (gather_coherent coherent ?_)
    intro station member p point
    obtain ⟨q, point', told⟩ := key_told grown key.1 station member
    rw [point] at point'
    cases point'
    exact told

/-- Whatever is added up over all groups is added up over all keys. -/
theorem gatherKeys_weight {M : Type} [AddCommMonoid M] (f : List Int → NodeOpening → M)
    {keys : List (Word × Nat)} {nodesMap : NodesMap Point}
    (coherent : Coherent (ToldFull backend setup tree.disk.db (2 ^ k)) nodesMap) :
    weight f (gatherKeys backend setup kids keys nodesMap) = weight f nodesMap +
      (keys.map fun key => ((openedFrom key.2 0 (keyStations backend setup kids key.1)).map
        fun e => f e.1 e.2).sum).sum := by
  induction keys generalizing nodesMap with
  | nil => simp [gatherKeys]
  | cons key keys ih =>
    have first : weight f (gather key.2 0 (keyStations backend setup kids key.1) nodesMap) = _ :=
      gather_weight f (fun p values other told told' => told_unique grown.valid told.1 told'.1)
        coherent (key_told grown key.1)
    have alone : gatherKeys backend setup kids [key] nodesMap =
        gather key.2 0 (keyStations backend setup kids key.1) nodesMap := rfl
    have next : Coherent (ToldFull backend setup tree.disk.db (2 ^ k))
        (gather key.2 0 (keyStations backend setup kids key.1) nodesMap) :=
      alone ▸ gatherKeys_coherent grown coherent
    rw [gatherKeys, List.foldl_cons]
    refine (ih next).trans ?_
    rw [first, List.map_cons, List.sum_cons, add_assoc]

theorem gatherKeys_placed {keys : List (Word × Nat)} {paths : List (List Nat)}
    (known : ∀ key ∈ keys, key.2 < paths.length) {nodesMap : NodesMap Point}
    (placed : ∀ node ∈ nodesMap, ∀ o ∈ node.items, Placed (2 ^ k) paths o) :
    ∀ node ∈ gatherKeys backend setup kids keys nodesMap, ∀ o ∈ node.items,
      Placed (2 ^ k) paths o := by
  induction keys generalizing nodesMap with
  | nil => exact placed
  | cons key keys ih =>
    obtain ⟨here, rest⟩ := List.forall_mem_cons.mp known
    refine ih rest (gather_items placed ?_)
    have few := keyStations_length grown key.1
    have fit := stations_fit backend grown.ready (.inner kids)
      (stemOf (kzgScheme backend setup).width key.1) (suffixOf (kzgScheme backend setup).width key.1)
    exact openedFrom_placed here fit (show 0 + (keyStations backend setup kids key.1).length ≤ 256 ^ 2 by
      omega)

omit [DecidableEq Point] grown in
theorem openedFrom_total (rootBytes : Bytes) (paths : List (List Nat)) (n keyIdx depth : Nat)
    (stops : List (Station Point)) :
    ((openedFrom keyIdx depth stops).map fun e =>
        openingTerm backend w n rootBytes paths e.1 e.2).sum =
      Openings.total w n X (openingsFrom w n
        (factorAt backend.sha256 rootBytes (paths[keyIdx]?.getD [])) depth stops) := by
  induction stops generalizing depth with
  | nil => rfl
  | cons station stops ih =>
    rw [openedFrom, List.map_cons, List.sum_cons, ih, openingsFrom, total_cons]
    rfl

theorem collectKeys_ok {root : TreeNode Point}
    (object : ObjectOf (kzgScheme backend setup) tree.disk.db root (.inner kids))
    (keys : List (Word × Nat)) (nodesMap : NodesMap Point) :
    keys.foldlM (fun nodesMap key => collectKey backend setup tree.disk.db root nodesMap
        (key.1.bytes, key.2)) nodesMap = .ok (gatherKeys backend setup kids keys nodesMap) := by
  induction keys generalizing nodesMap with
  | nil => rfl
  | cons key keys ih =>
    obtain ⟨visits, stand, runs⟩ := walkKey_visits grown object key.1
    have first : collectKey backend setup tree.disk.db root nodesMap (key.1.bytes, key.2) =
        .ok (gather key.2 0 (keyStations backend setup kids key.1) nodesMap) :=
      (runs _ _ nodesMap).trans (collect_gathers key.2 stand 0 nodesMap)
    rw [List.foldlM_cons, first]
    exact ih _

/-- The polynomial of a multiproof: the true openings of all keys, and the
    commitments that they pass but that of the root, each once. -/
theorem multiproof_aggregate (keys : List Word) :
    ∃ p rootBytes commitments total, nodePoint (kzgScheme backend setup) (.inner kids) = some p ∧
      backend.format.generateRootBytes p = .ok rootBytes ∧
      VerkleMultiproof.aggregate backend setup tree (keys.map Word.bytes) = .ok (commitments, total) ∧
      Totals (2 ^ k) total ∧ lifted w (2 ^ k) total = (keys.map fun key =>
        Openings.total w (2 ^ k) X (keyOpenings backend setup w k rootBytes kids key)).sum ∧
      commitments.Nodup ∧ ∀ q, q ∈ commitments ↔ q ≠ p ∧
        ∃ key ∈ keys, some q ∈ (keyStations backend setup kids key).map Station.point := by
  obtain ⟨p, root, point, known, commitment, object⟩ := grown_root grown
  obtain ⟨rootBytes, bytes⟩ := grown.faithful.root_bytes p
  have read := mapM_map_ok (l := keys) (h := Word.bytes)
    fun key _ => (pathOf_ok grown.ready key.bytes).1
  obtain ⟨paths, listed⟩ : ∃ paths, paths = keys.map fun key => pathOf setup.width key.bytes :=
    ⟨_, rfl⟩
  rw [← listed] at read
  have small : ∀ path ∈ paths, ∀ i ∈ path, i < 256 ^ 2 := by
    intro path member
    rw [listed] at member
    obtain ⟨key, _, rfl⟩ := List.mem_map.mp member
    exact (pathOf_ok grown.ready key.bytes).2
  obtain ⟨r, derived⟩ := deriveR_ok backend.sha256 rootBytes paths small CURVE_ORDER
  let nodesMap := gatherKeys backend setup kids keys.zipIdx []
  have collected : (keys.map Word.bytes).zipIdx.foldlM
      (collectKey backend setup tree.disk.db root) [] = .ok nodesMap := by
    rw [List.zipIdx_map, List.foldlM_map]
    exact collectKeys_ok grown object keys.zipIdx []
  have coherent : Coherent (ToldFull backend setup tree.disk.db (2 ^ k)) nodesMap :=
    gatherKeys_coherent grown (coherent_nil _)
  have known_paths : ∀ key ∈ keys.zipIdx, key.2 < paths.length := by
    rintro ⟨key, i⟩ member
    have inside := (List.getElem?_eq_some_iff.mp (List.mk_mem_zipIdx_iff_getElem?.mp member)).1
    simpa [listed] using inside
  have placed : ∀ node ∈ nodesMap, ∀ o ∈ node.items, Placed (2 ^ k) paths o :=
    gatherKeys_placed grown known_paths fun node member => absurd member List.not_mem_nil
  obtain ⟨total, run, totals, poly⟩ := openGroups_ok grown.ready rootBytes small p
    (fun node member => (coherent.told node member).2) placed [] (totals_zero (2 ^ k))
  refine ⟨p, rootBytes, (names nodesMap).filter (· ≠ p), total, point, bytes, ?_, totals, ?_,
    coherent.distinct.filter _, ?_⟩
  · rw [← grown.ready.lays.size] at run
    simp only [VerkleMultiproof.aggregate, known, read, commitment, bytes, derived, collected, bind,
      Except.bind]
    exact run
  · rw [poly, lifted_zero grown.ready.lays.primitive, zero_add,
      gatherKeys_weight grown _ (coherent_nil _)]
    have each : ∀ key ∈ keys.zipIdx, ((openedFrom key.2 0 (keyStations backend setup kids key.1)).map
        fun e => openingTerm backend w (2 ^ k) rootBytes paths e.1 e.2).sum =
          Openings.total w (2 ^ k) X (keyOpenings backend setup w k rootBytes kids key.1) := by
      rintro ⟨key, i⟩ member
      have path : paths[i]? = some (pathOf setup.width key.bytes) := by
        rw [listed, List.getElem?_map, List.mk_mem_zipIdx_iff_getElem?.mp member]
        rfl
      rw [openedFrom_total, path, Option.getD_some, keyOpenings]
    have sums : (keys.zipIdx.map fun key => Openings.total w (2 ^ k) X
        (keyOpenings backend setup w k rootBytes kids key.1)) = keys.map fun key =>
          Openings.total w (2 ^ k) X (keyOpenings backend setup w k rootBytes kids key) := by
      conv_rhs => rw [← List.zipIdx_map_fst 0 keys]
      rw [List.map_map]
      rfl
    rw [List.map_congr_left each, sums, weight, List.map_nil, List.sum_nil, zero_add]
  · intro q
    rw [List.mem_filter, gatherKeys_names]
    have numbered : (∃ key ∈ keys.zipIdx,
        some q ∈ (keyStations backend setup kids key.1).map Station.point) ↔
          ∃ key ∈ keys, some q ∈ (keyStations backend setup kids key).map Station.point := by
      constructor
      · rintro ⟨⟨key, i⟩, member, passed⟩
        exact ⟨key, List.mem_of_getElem? (List.mk_mem_zipIdx_iff_getElem?.mp member), passed⟩
      · rintro ⟨key, member, passed⟩
        obtain ⟨i, found⟩ := List.getElem?_of_mem member
        exact ⟨(key, i), List.mk_mem_zipIdx_iff_getElem?.mpr found, passed⟩
    rw [numbered]
    simp [names, and_comm]

/- Pass 2. -/

structure Records (step : Step Point) (station : Station Point) : Prop where
  point : station.point = some step.commitment
  idx : step.idx = station.index
  nodeType : step.nodeType = station.type
  childVal : step.childVal = station.leaf

omit [DecidableEq Point] [NeZero (kzgScheme backend setup).width] grown in
theorem record_all {visits : List (Visit Point)} {stops : List (Station Point)}
    (stand : List.Forall₂ (Stands setup) visits stops) (depth : Nat)
    (traversal : List (Step Point)) :
    ∃ steps, List.Forall₂ Records steps stops ∧
      visitAll (fun _ _ traversal => .ok traversal)
        (fun commitment node idx _ traversal => recordStep commitment node idx traversal) depth visits
        traversal = .ok (traversal ++ steps) := by
  induction stand generalizing depth traversal with
  | nil => exact ⟨[], .nil, by rw [List.append_nil]; rfl⟩
  | @cons visit station visits stops here _ ih =>
    obtain ⟨child, read, leaf⟩ := here.child
    let step : Step Point := ⟨visit.commitment, visit.idx, visit.node.type, childValue child⟩
    obtain ⟨steps, records, run⟩ := ih (depth + 1) (traversal ++ [step])
    refine ⟨step :: steps, .cons ⟨here.point, by rw [← here.index], here.type, leaf.symm⟩ records, ?_⟩
    rw [List.append_assoc] at run
    rw [visitAll]
    change (recordStep visit.commitment visit.node visit.idx traversal >>= _) = _
    rw [recordStep, read]
    exact run

omit [DecidableEq Point] in
theorem traverseKey_ok {root : TreeNode Point}
    (object : ObjectOf (kzgScheme backend setup) tree.disk.db root (.inner kids)) (key : Word) :
    ∃ steps, traverseKey backend setup tree.disk.db root key.bytes = .ok steps ∧
      List.Forall₂ Records steps (keyStations backend setup kids key) := by
  obtain ⟨visits, stand, runs⟩ := walkKey_visits grown object key
  obtain ⟨steps, records, run⟩ := record_all stand 0 []
  exact ⟨steps, (runs _ _ _).trans run, records⟩

/-- Once the polynomial is committed to, the prover returns: with every key the
    stations that it passes. -/
theorem multiproof_generated (keys : List Word) {commitments : List Point} {total : List Int}
    (gathered : VerkleMultiproof.aggregate backend setup tree (keys.map Word.bytes) =
      .ok (commitments, total)) {witness : Point}
    (made : generateWitness backend setup total = .ok witness) :
    ∃ traversals : List (List (Step Point)),
      VerkleMultiproof.generateProof backend setup tree (keys.map Word.bytes) =
        .ok (⟨commitments, fun keyIdx => traversals[keyIdx]?⟩, witness) ∧
      List.Forall₂ (fun key steps => List.Forall₂ Records steps (keyStations backend setup kids key))
        keys traversals := by
  obtain ⟨p, root, _, known, _, object⟩ := grown_root grown
  obtain ⟨traversals, run, each⟩ := mapM_ok (l := keys)
    (f := fun key => traverseKey backend setup tree.disk.db root key.bytes)
    (R := fun key steps => List.Forall₂ Records steps (keyStations backend setup kids key))
    fun key _ => traverseKey_ok grown object key
  refine ⟨traversals, ?_, each⟩
  have listed : (keys.map Word.bytes).mapM (traverseKey backend setup tree.disk.db root) =
      .ok traversals := by
    rw [List.mapM_map]
    exact run
  simp only [VerkleMultiproof.generateProof, gathered, made, known, listed, bind, Except.bind]

end Keys

end MultiproofOpenings
