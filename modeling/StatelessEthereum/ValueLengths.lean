import StatelessEthereum.FirstInsert
import StatelessEthereum.KeyCollisions
import StatelessEthereum.IdealCurve

/- Values of any length in the Verkle tree (tree/verkle_tree.py). A suffix node
   stores its values one behind the other and reads them back 32 bytes at a time,
   so each but the last must fill its 32 bytes, and the last must not exceed them. -/
namespace ValueLengths
open PythonError BigEndian StateEffect PutLog DiskLog VerkleSerialization KzgSetup
open EvaluationDomain Fft CommitmentScheme
open IdealCurve FirstInsert
open VerkleTrees hiding insert get
open StemTree hiding insert lookup
open VerkleStorage VerkleKey VerkleRefinement VerkleRuns KzgScheme
variable {Point G1 G2 FQ12 : Type}

section Condition
variable (width : Nat) [NeZero width]

/-- A value that leaves the other values of its suffix node where they are read. -/
structure InPlace (done : List (Word × Bytes)) (key : Word) (value : Bytes) : Prop where
  short : value.length ≤ 32
  last : ∀ other v, lastInserted done other = some v → stemOf width other = stemOf width key →
    suffixOf width key < suffixOf width other → value.length = 32
  full : ∀ other v, lastInserted done other = some v → stemOf width other = stemOf width key →
    suffixOf width other < suffixOf width key → v.length = 32

/-- Of the values of one stem all but the one at the highest suffix are full. -/
structure Packed (done : List (Word × Bytes)) : Prop where
  short : ∀ key v, lastInserted done key = some v → v.length ≤ 32
  full : ∀ key other v w, lastInserted done key = some v → lastInserted done other = some w →
    stemOf width other = stemOf width key → suffixOf width key < suffixOf width other →
    v.length = 32

end Condition

section Packing
variable {width bits : Nat} [NeZero width]

theorem packed_step {done : List (Word × Bytes)} {key : Word} {value : Bytes}
    (packed : Packed width done) (placed : InPlace width done key value) :
    Packed width (done ++ [(key, value)]) := by
  constructor
  · intro k v found
    rw [lastInserted_append] at found
    split at found
    · cases found
      exact placed.short
    · exact packed.short k v found
  · intro k other v w found found' stems order
    rw [lastInserted_append] at found found'
    split at found <;> split at found'
    · rename_i one two
      subst one
      subst two
      exact absurd order (lt_irrefl _)
    · rename_i one _
      subst one
      cases found
      exact placed.last other w found' stems order
    · rename_i _ two
      subst two
      exact placed.full k v found stems.symm order
    · exact packed.full k other v w found found' stems order

omit [NeZero width] in
theorem sound_of_lookup {V : Type} [Entry V] {n : Nat} (narrow : width ≤ 256) {t : Trie width V}
    (fits : Fits t n) (shallow : n < 256)
    (readable : ∀ k, Readable (childList fun x => StemTree.lookup t k x)) : Sound t := by
  induction t generalizing n with
  | empty => trivial
  | group stem slots =>
    have here := readable stem
    have size : stem.length = n := fits
    simp only [StemTree.lookup, if_true] at here
    exact ⟨size ▸ shallow, narrow_stem narrow stem, here⟩
  | inner kids ih =>
    obtain ⟨m, size, below⟩ := fits
    intro i
    exact ih i (below i) (by omega) fun k => readable (i :: k)

theorem packed_sound (aligned : Aligned width bits) (narrow : width ≤ 256)
    {done : List (Word × Bytes)} (packed : Packed width done) : Sound (treeOf width done) := by
  have named {k : List (Fin width)} {x : Fin width} {v : Bytes}
      (found : StemTree.lookup (treeOf width done) k x = some v) :
      ∃ key, stemOf width key = k ∧ suffixOf width key = x ∧ lastInserted done key = some v := by
    by_cases known : ∃ key, stemOf width key = k ∧ suffixOf width key = x
    · obtain ⟨key, rfl, rfl⟩ := known
      rw [treeOf_lookup aligned] at found
      exact ⟨key, rfl, rfl, found⟩
    · rw [treeOf_absent aligned.toCuts done fun key stem suffix => known ⟨key, stem, suffix⟩] at found
      cases found
  obtain ⟨kids, tree, rooted⟩ := treeOf_rooted aligned.toCuts done
  have fits : Fits (treeOf width done) (depth width + 1) := by
    rw [tree]
    exact ⟨_, rfl, rooted.fits⟩
  have few := Nat.div_le_self 256 width.log2
  refine sound_of_lookup narrow fits (by rw [depth]; omega) fun k => childList_readable ?_ ?_
  · intro i v found
    obtain ⟨key, _, _, last⟩ := named found
    exact packed.short key v last
  · intro i j v w before found found'
    obtain ⟨key, stem, suffix, last⟩ := named found
    obtain ⟨other, stem', suffix', last'⟩ := named found'
    exact packed.full key other v w last last' (stem'.trans stem.symm)
      (by rw [suffix, suffix']; exact before)

end Packing

/-- The trees that such inserts lead to, with reopening and inserts that refuse
    their key in between, and the values inserted. -/
inductive Grown (scheme : Scheme Point) (width : Nat) [NeZero width] :
    List (Word × Bytes) → VerkleTree Point → Prop where
  | empty : Grown scheme width [] emptyTree
  | insert {run : List (Word × Bytes)} {t : VerkleTree Point} (grown : Grown scheme width run t)
      (key : Word) (value : Bytes) (placed : InPlace width run key value) :
      Grown scheme width (run ++ [(key, value)]) (VerkleTrees.insert scheme key.bytes value t).2
  | refuse {run : List (Word × Bytes)} {t : VerkleTree Point} (grown : Grown scheme width run t)
      (key value : Bytes) (odd : key.length ≠ 32) :
      Grown scheme width run (VerkleTrees.insert scheme key value t).2
  | reopen {run : List (Word × Bytes)} {t reopened : VerkleTree Point}
      (grown : Grown scheme width run t) (opened : openTree scheme t.disk = .ok reopened) :
      Grown scheme width run reopened

section Trees
variable {scheme : Scheme Point} {bits : Nat} [NeZero scheme.width]

omit [NeZero scheme.width] in
theorem insert_refuses {key : Bytes} (odd : key.length ≠ 32) (value : Bytes)
    (t : VerkleTree Point) : (VerkleTrees.insert scheme key value t).2 = t := by
  simp [VerkleTrees.insert, splitKey, odd, bind_run]

/-- What such a tree holds is the abstract tree of the values inserted. -/
structure Keeping (scheme : Scheme Point) [NeZero scheme.width] (run : List (Word × Bytes))
    (t : VerkleTree Point) (kids : Fin scheme.width → Trie scheme.width Bytes) : Prop where
  tree : treeOf scheme.width run = .inner kids
  rooted : Rooted kids (depth scheme.width)
  holding : Holding scheme t kids
  packed : Packed scheme.width run

theorem keeping_insert (lawful : Lawful scheme) (aligned : Aligned scheme.width bits)
    (narrow : scheme.width ≤ 256) {run : List (Word × Bytes)} {t : VerkleTree Point}
    {kids : Fin scheme.width → Trie scheme.width Bytes} (keeping : Keeping scheme run t kids)
    {key : Word} {value : Bytes} (placed : InPlace scheme.width run key value)
    (valid : t.disk.db.Consistent) :
    ∃ kids', (VerkleTrees.insert scheme key.bytes value t).1 = .ok () ∧
      Keeping scheme (run ++ [(key, value)]) (VerkleTrees.insert scheme key.bytes value t).2 kids' := by
  have packed := packed_step keeping.packed placed
  have whole := packed_sound aligned narrow packed
  rw [treeOf_append, keeping.tree] at whole
  obtain ⟨kids', tree, rooted, ran, shown⟩ := insert_represents lawful aligned.toCuts
    keeping.holding keeping.rooted key value whole valid
  refine ⟨kids', ran, ?_, rooted, Or.inr shown, packed⟩
  rw [treeOf_append, keeping.tree, ← tree]
  rfl

theorem grown_keeping (lawful : Lawful scheme) (aligned : Aligned scheme.width bits)
    (narrow : scheme.width ≤ 256) {run : List (Word × Bytes)} {t : VerkleTree Point}
    (grown : Grown scheme scheme.width run t) (valid : t.disk.db.Consistent) :
    ∃ kids, Keeping scheme run t kids := by
  induction grown with
  | empty =>
    refine ⟨bare, rfl, rooted_bare _, Or.inl ⟨idle_empty scheme, rfl⟩, ?_, ?_⟩
    · intro key v found
      cases found
    · intro key other v w found
      cases found
  | @insert run t _ key value placed ih =>
    have earlier := consistent_earlier (insert_grows key.bytes value t) valid
    obtain ⟨kids, keeping⟩ := ih earlier
    obtain ⟨kids', _, keeping'⟩ := keeping_insert lawful aligned narrow keeping placed earlier
    exact ⟨kids', keeping'⟩
  | @refuse run t _ key value odd ih =>
    rw [insert_refuses odd] at valid ⊢
    exact ih valid
  | @reopen run t reopened _ opened ih =>
    have disk := KeyCollisions.openTree_disk opened
    obtain ⟨kids, keeping⟩ := ih (disk ▸ valid)
    obtain ⟨again, opened', _, holding⟩ := openTree_holding lawful keeping.holding (disk ▸ valid)
    cases opened.symm.trans opened'
    exact ⟨kids, keeping.tree, keeping.rooted, holding, keeping.packed⟩

theorem keeping_get (lawful : Lawful scheme) (aligned : Aligned scheme.width bits)
    {run : List (Word × Bytes)} {t : VerkleTree Point}
    {kids : Fin scheme.width → Trie scheme.width Bytes} (keeping : Keeping scheme run t kids)
    (valid : t.disk.db.Consistent) (key : Word) :
    VerkleTrees.get scheme t key.bytes = .ok ((lastInserted run key).map ofBytes) := by
  have answer := treeOf_lookup aligned run key
  rw [keeping.tree] at answer
  rw [get_lookup lawful aligned.toCuts keeping.holding keeping.rooted valid key, answer]
  rfl

theorem insert_kept (lawful : Lawful scheme) (aligned : Aligned scheme.width bits)
    (narrow : scheme.width ≤ 256) {run : List (Word × Bytes)} {t : VerkleTree Point}
    (grown : Grown scheme scheme.width run t) {key : Word} {value : Bytes}
    (placed : InPlace scheme.width run key value)
    (valid : (VerkleTrees.insert scheme key.bytes value t).2.disk.db.Consistent) :
    (VerkleTrees.insert scheme key.bytes value t).1 = .ok () ∧
      VerkleTrees.get scheme (VerkleTrees.insert scheme key.bytes value t).2 key.bytes =
        .ok (some (ofBytes value)) ∧
      ∀ other : Word, other ≠ key →
        VerkleTrees.get scheme (VerkleTrees.insert scheme key.bytes value t).2 other.bytes =
          VerkleTrees.get scheme t other.bytes := by
  have earlier := consistent_earlier (insert_grows key.bytes value t) valid
  obtain ⟨kids, keeping⟩ := grown_keeping lawful aligned narrow grown earlier
  obtain ⟨kids', ran, keeping'⟩ := keeping_insert lawful aligned narrow keeping placed earlier
  refine ⟨ran, ?_, fun other apart => ?_⟩
  · rw [keeping_get lawful aligned keeping' valid, lastInserted_append, if_pos rfl]
    rfl
  · rw [keeping_get lawful aligned keeping' valid, keeping_get lawful aligned keeping earlier,
      lastInserted_append, if_neg apart]

end Trees

theorem inPlace_width {width width' : Nat} [NeZero width] [NeZero width'] (same : width = width')
    {run : List (Word × Bytes)} {key : Word} {value : Bytes} (placed : InPlace width run key value) :
    InPlace width' run key value := by
  subst same
  exact placed

theorem grown_width {scheme : Scheme Point} {width width' : Nat} [NeZero width] [NeZero width']
    (same : width = width') {run : List (Word × Bytes)} {t : VerkleTree Point}
    (grown : Grown scheme width run t) : Grown scheme width' run t := by
  subst same
  exact grown

/- Trees of width 256 whose setup has a power of the root of unity as its secret: a
   node is then committed to by one of its entries. -/
section Sample

def tabledSha256 (hashes : List (Point2D × Bytes)) (text : Bytes) : Bytes :=
  ((hashes.map fun e => (HashScheme.pointText e.1, e.2)).lookup text).getD (List.replicate 32 0)

/-- The scheme of such a setup with its commitments read off. -/
def entryScheme (points : List (Nat × Point2D)) (i : Nat) (sha256 : Bytes → Bytes) (zlib : Zlib)
    (setup : SetupObject Nat Nat) : Scheme Point2D := {
  plainScheme (tabledCurve points) sampleLogFloor sha256 zlib setup with
  width := 256
  commit := fun values =>
    if values.length ≤ 256 then .ok ((tabledCurve points).normalize (values.getD i 0))
    else commit (tabledCurve points) sampleLogFloor setup (values.map Int.ofNat)
  commitExtension := fun stem child => do
    let stem ← bytesOf stem
    .ok ((tabledCurve points).normalize ([1, ofBytes stem, childValue child, 0].getD i 0))
  hashPointToField := fun p => HashScheme.hashPointToField sha256 p CURVE_ORDER }

theorem residues_padded (values : List Nat) (n i : Nat) :
    (residues (values.map Int.ofNat ++ List.replicate n 0) i : ZMod CURVE_ORDER) =
      (values.getD i 0 : Nat) := by
  simp only [residues, List.getD_eq_getElem?_getD, List.getElem?_append, List.length_map,
    List.getElem?_map, List.getElem?_replicate]
  split
  · rename_i inside
    simp [List.getElem?_eq_getElem inside]
  · rename_i outside
    rw [List.getElem?_eq_none (Nat.le_of_not_lt outside)]
    split <;> simp

section Entry
variable {points : List (Nat × Point2D)} {secret : Nat} {setup : SetupObject Nat Nat}
  (made : verkleKzgSetup (tabledCurve points) secret 256 = .ok setup) {i : Nat} (inside : i < 256)
  (placed : ∀ root, rootOfUnityCandidates.lookup 256 = some root →
    (secret : ZMod CURVE_ORDER) = root ^ i)
include made inside placed

theorem commitValues_entry (values : List Nat) {n : Nat} (few : values.length + n ≤ 256) :
    commitValues (tabledCurve points) sampleLogFloor setup
      (values.map Int.ofNat ++ List.replicate n 0) =
        .ok ((tabledCurve points).normalize (values.getD i 0)) := by
  obtain ⟨root, k, known, size, standard⟩ := made_standard made
  have short : (values.map Int.ofNat ++ List.replicate n 0).length ≤ 2 ^ k := by
    simpa [← size] using few
  obtain ⟨o, run, log⟩ := commitSum_log (standard_logs (tabledLogs points) standard)
    sampleLogFloor short
  rw [Polynomial.coe_aeval_eq_eval, placed root known,
    interp_eval standard.tables.primitive (size ▸ inside), residues_padded] at log
  have same := (ZMod.natCast_eq_natCast_iff' o (values.getD i 0) CURVE_ORDER).mp log
  rw [run]
  simp only [tabledCurve, same]

theorem plainScheme_entry (sha256 : Bytes → Bytes) (zlib : Zlib) :
    plainScheme (tabledCurve points) sampleLogFloor sha256 zlib setup =
      entryScheme points i sha256 zlib setup := by
  have width : setup.width = 256 := made_width made
  obtain ⟨k, w, bits, _, ready⟩ := setup_ready (Or.inr rfl) made
  have order : setup.modulus = CURVE_ORDER := ready.lays.order
  have arrays : (fun values => commit (tabledCurve points) sampleLogFloor setup
      (values.map Int.ofNat)) = (entryScheme points i sha256 zlib setup).commit := by
    funext values
    simp only [entryScheme]
    split
    · rename_i few
      refine commitValues_entry made inside placed values ?_
      simp only [width, List.length_map]
      omega
    · rfl
  have extensions : CommitmentScheme.commitExtension (tabledCurve points) sampleLogFloor setup =
      (entryScheme points i sha256 zlib setup).commitExtension := by
    funext stem child
    simp only [entryScheme, CommitmentScheme.commitExtension]
    refine bind_congr fun text => ?_
    exact commitValues_entry made inside placed [1, ofBytes text, childValue child, 0] (n := 0)
      (by simp)
  simp only [plainScheme, kzgScheme, plainBackend, plainFormat, width, order, arrays, extensions]
  rfl

end Entry

def tabledSetup (points : List (Nat × Point2D)) (secret : Nat) : SetupObject Nat Nat :=
  (verkleKzgSetup (tabledCurve points) secret 256).toOption.getD
    ⟨⟨0, 0, 0, [], [], []⟩, [], [], [], []⟩

theorem tabledSetup_made (points : List (Nat × Point2D)) (secret : Nat) :
    verkleKzgSetup (tabledCurve points) secret 256 = .ok (tabledSetup points secret) := by
  obtain ⟨setup, _, _, _, made, _⟩ := supported_ready (Or.inr rfl) (tabledCurve points) secret
  rw [tabledSetup, made]
  rfl

/- A value of 33 bytes. The secret is one: a node is committed to by its first entry. -/

def longValue : Bytes := 1 :: List.replicate 32 0

def zeroKey : Word := ⟨List.replicate 32 0, List.length_replicate⟩

def longPoint : Point2D := ⟨fq
    851225125141982073085564043796544903975976339551023534213902616133439187633906590430493627262646460637781859545581, fq
    1347969306441204661848418859189483409453430037686482442978681379094856858420893511288650086385931703797784226074310⟩

def unitPoint : Point2D := ⟨fq
    3685416753713387016781088315183077757961620795782546409894578378688607592378376318836054947676345821548104185464507, fq
    1339506544944476473020471379941921221584933875938349620426543736416511423956333506472724655353366534992391756441569⟩

def topPoint : Point2D := ⟨fq
    2664910221677620242600677546457479412028701671395912469018021499320627321602643153332897030790637124996962246344332, fq
    1690973505312625456991064429926089475469028511110986226702927000012838152560006100671213650899229751159677093107544⟩

def longHash : Bytes :=
  toBytes 32 0x92da9eb9135b6ccc6645e8600a947e6668d79c89aa9a2894dce8533c95e47c69

def unitHash : Bytes :=
  toBytes 32 0x212b9013851cdf926a1cb9120d76192c90652e5cd1a9f7f7143a8c669a5ef5f7

def topHash : Bytes :=
  toBytes 32 0x8aaa610b06cc028d21a30793c173bd51fd956bda1a2ecd4dffcd6732d9837065

def unitPoints : List (Nat × Point2D) := [
  (10920338887063814464675503992315976177888879664585288394250266608035967270910, longPoint),
  (1, unitPoint),
  (15003292804764598449601266724337082340429203825814296139664779293067329861111, topPoint)]

def unitHashes : List (Point2D × Bytes) := [
  (longPoint, longHash),
  (unitPoint, unitHash),
  (topPoint, topHash)]

/-- The nodes of the insert as bytes, and compressed. -/
def unitStreams : List (Bytes × Bytes) := [
  (2 :: (commitmentBytes longPoint ++ ([1, 0, 1] ++ (List.replicate 31 0 ++ longValue))),
    toBytes 40 0x785e6332606dbf609be877b8d0e047d8ed8a9c0fda2753d39d7e4d98b3e1237745e79feb65116f7b ++
    toBytes 40 0x8fa7732f52eb7aa2559429f665e35b038e43ecaf2ee806704ee038b9f1fcdc3ca1d33712eb9beecf ++
    toBytes 40 0x3bbe684ef74d591689473f782c1f9f0db4dbf321e215fff9337dc718191819f00342f20c003a9533 ++
    toBytes 1 0x98),
  (1 :: (commitmentBytes unitPoint ++ (30 :: (List.replicate 30 0 ++
      toBytes 32 (ofBytes longHash % CURVE_ORDER)))),
    toBytes 40 0x785e633410ff7879b9e1f4eb53d4a626f7f8af5cc37f38a3c77f7ac94ed6857e56f6e2d26b227242 ++
    toBytes 40 0x5fd8ffac927affdbea03d76da563bb0d38367f697cbc6ac1c705f30cde96c8763df9f3f5c1d4ab17 ++
    toBytes 40 0xb8be31dc9638adc3b2f9ed059be32e8b3aba9ef0ac52d6743bfafca11c035e20f7e67beacbbdef5b ++
    toBytes 31 0x8c790422183e2d4b1495fcd1b66af699a9775e04db4e7d52930100772e44f7),
  (0 :: (commitmentBytes topPoint ++ ([1, 0, 1] ++ (List.replicate 31 0 ++
      toBytes 32 (ofBytes unitHash % CURVE_ORDER)))),
    toBytes 40 0x785e6330100c2811fcf4f6f2ca4b3fdef2f3eebd3bd53bb26b91b2be9ee8bc6d61ffb79c392ae414 ++
    toBytes 40 0x55f74e57df61e22e9b8fef2adcec7a0cb8fe74ee7279de2caaa8fdb3e37f43b4467e0adb9b4b17a5 ++
    toBytes 40 0x025f9ed510bfaeb9e94196cba4bc6bde77effd329d3acf943f3c82918191013f50d49e20dc2a737f ++
    toBytes 31 0x5296cc4e21de32499d09a97a3117577eff2e62d593362beeeb7700c2163ed6)]

theorem unitZlib_lossless : (tabledZlib unitStreams).Lossless :=
  tabledZlib_lossless (by decide +kernel)

abbrev unitScheme : Scheme Point2D :=
  plainScheme (tabledCurve unitPoints) sampleLogFloor (tabledSha256 unitHashes)
    (tabledZlib unitStreams) (tabledSetup unitPoints 1)

/- A second value at a higher suffix of the same stem. The secret is the square of
   the root of unity: a node is committed to by its entry at 2. -/

def lowKey : Word := ⟨2 :: List.replicate 31 0, rfl⟩

def highKey : Word := ⟨2 :: (List.replicate 30 0 ++ [2]), rfl⟩

def fullValue : Bytes := toBytes 32 7

def shortValue : Bytes := [5]

def slotSecret : Nat :=
  3535074550574477753284711575859241084625659976293648650204577841347885064712

def shortPoint : Point2D := ⟨fq
    2601793266141653880357945339922727723793268013331457916525213050197274797722760296318099993752923714935161798464476, fq
    3498096627312022583321348410616510759186251088555060790999813363211667535344132702692445545590448314959259020805858⟩

def lowExtensionPoint : Point2D := ⟨fq
    3730153681964527839431224347453829045460194678178007318541924330812105597338414798251895594395250765024321727943344, fq
    330267013202049596748787301084544102840910139012890232072089482848492838041993380395241794206913225362139775026854⟩

def lowRootPoint : Point2D := ⟨fq
    3832377712676333231704322801467590466171404943495488586462380701896185809498414233607964213257448430707661267322685, fq
    1134511899070902754863744031544940658761442635188965328804669235475583139200822156321243739691300631556611213428850⟩

def highExtensionPoint : Point2D := ⟨fq
    962978566763135379849824405073222431702042318630799392090694304843274357880959080562162270735736755050732487582800, fq
    3180247680630900644310326467141790291202345443449976948926018489287633556750297811236345299478619983605393300517203⟩

def highRootPoint : Point2D := ⟨fq
    1481237909448556394528835733656495243402287951756453842873058033152859943574666982491201445534118663054032577758661, fq
    97383794567184666131078888975017978850289632746594309606289611249098676294592157314132216803855673593251660711493⟩

def shortHash : Bytes :=
  toBytes 32 0x3e651700f8604e3b2b77bb2cd9abf02b2645d2464801303e624211432de059ae

def bareHash : Bytes :=
  toBytes 32 0x9d37e282dff85f7c8fffc4daf3461561337a4a9da281111f2dbf927b7a99db77

def lowExtensionHash : Bytes :=
  toBytes 32 0x759ac1652849d9443a15b19bd4dd4918471fbc4820d35ddfca2d734b0c8cabf2

def lowRootHash : Bytes :=
  toBytes 32 0x485b537231fa616cb12ae24fa2b7cbdad6a9bbfd7344c38d70749c2487f21f2b

def highExtensionHash : Bytes :=
  toBytes 32 0xc761905b956125f1f0514859bf87e7cb2adaf90926e3acaaa3ea3aee7950a18c

def highRootHash : Bytes :=
  toBytes 32 0x9b5e8cce333516ec4d27d03b1f0ebb5c4520c89f8b13f50611286b7077453564

def slotPoints : List (Nat × Point2D) := [(5, shortPoint),
  (18675981964063700795938202363511094190969710465154839040583097269631984458614, lowExtensionPoint),
  (758157321334263366748763617431532835650748927840845328471032297545951652849, lowRootPoint),
  (28222006932028175235161292712158578566992400986470475869802188421305768892846, highExtensionPoint),
  (37746762178787904558218743227284102017674105140830315769675384565363343663499, highRootPoint)]

def slotHashes : List (Point2D × Bytes) := [
  (⟨fq 0, fq 0⟩, bareHash),
  (shortPoint, shortHash),
  (lowExtensionPoint, lowExtensionHash),
  (lowRootPoint, lowRootHash),
  (highExtensionPoint, highExtensionHash),
  (highRootPoint, highRootHash)]

/-- The nodes of the two inserts as bytes, and compressed. -/
def slotStreams : List (Bytes × Bytes) := [
  (2 :: (commitmentBytes ⟨fq 0, fq 0⟩ ++ ([1, 0, 1] ++ (List.replicate 31 0 ++ fullValue))),
    toBytes 15 0x789c63626480408a003b0001e8000e),
  (1 :: (commitmentBytes lowExtensionPoint ++ (30 :: (List.replicate 30 0 ++
      toBytes 32 (ofBytes bareHash % CURVE_ORDER)))),
    toBytes 40 0x789c633490b0b12995bdec3b5d89fb5bf6cb5f37786bcf7a4cd0e1cc5d91a8c9519b57fc89a5c4da ++
    toBytes 40 0x4a68bd79e2a2577c3211f3575cda60c0a41a14a7b3fedfc79e4abbfc53710c0ddf9ccf6f7a7cc9bf ++
    toBytes 40 0xf7a8984852911b7bd1c3595abb5c02bfee79b8deefe2c68663cbe418f0024d2f6bfd6d518f4c628e ++
    toBytes 29 0xbeb9f472896df4fd3dcb662d6adaaaa0bb7f524dd5ccdb650081ab3f0c),
  (0 :: (commitmentBytes lowRootPoint ++ ([1, 0, 4] ++ (List.replicate 31 0 ++
      toBytes 32 (ofBytes lowExtensionHash % CURVE_ORDER)))),
    toBytes 40 0x789c63309078e6ccc52d31adefec8913458ffcc56f656efdd6f469f9169f9e266d46f16987fcb29b ++
    toBytes 40 0xc356661e6afbf8fd6dd2f5430dc76d0dd8e3fecd71b9f1d1b9cfe0e1b47d4cfb9fd4abbb9cbdfff2 ++
    toBytes 40 0xcc1bbf4545064ccee55f823bbcfa0a5db4e38f1caffa37e32f471123030b037ec0b8564af0df9ae8 ++
    toBytes 32 0x3f6cb76f4e3e6d5d28f43949c255e12ae38353bac53e3c3dab3f0200f9b64287),
  (2 :: (commitmentBytes shortPoint ++ ([1, 0, 5] ++ (List.replicate 31 0 ++
      (fullValue ++ shortValue)))),
    toBytes 40 0x789c633210785e29bfb3e81fa363e42ae3956d4ab76ceeccf85f5099fad4ec467276fc99a8e32ba5 ++
    toBytes 40 0x7adc9ece62b8b3b4743dbfc46fe13b0662bb9cebee1c0b953338c82a64563265ffb60d32c732e4ba ++
    toBytes 40 0x7c6c2e054818ad8ef1dae3b025bcbbf5f4fadf1ff65ce74d3ff6889181958122c0ce0a00a24e3017),
  (1 :: (commitmentBytes highExtensionPoint ++ (30 :: (List.replicate 30 0 ++
      toBytes 32 (ofBytes shortHash % CURVE_ORDER)))),
    toBytes 40 0x789c63346073dc90c1e59ce0f9b3985138ebc5cb65d64ba40db9172d8e9096f876fef2b696372736 ++
    toBytes 40 0x9a97e7ca9d3d7022547ad71423950003919533361c77befbd9c532dc5562b7584e7263c8c26be56a ++
    toBytes 40 0xd3b6ca144ecc9af68d759bd6e294d795ba27edf312267c4efc182cc78017d8a58a33fc48f0b3d62e ++
    toBytes 29 0xdfad7373f5076d35d74b6e1e8c0676494e82ceba0f22d7010088ac39e1),
  (0 :: (commitmentBytes highRootPoint ++ ([1, 0, 4] ++ (List.replicate 31 0 ++
      toBytes 32 (ofBytes highExtensionHash % CURVE_ORDER)))),
    toBytes 40 0x789c6330e09cbf51dd7c79e4d9ca8408d3cea307ccce6fdcf356f6e4823cd70226f99b0784dd7f97 ++
    toBytes 40 0x89acdfcaf367656f82ebb5da0ed6a3fa0b7f2e78275f31b7878131e1a05392b8c79614f6357f05f7 ++
    toBytes 40 0x1a7988ae9de852576f6ded2bf83be3dfa3cf1dadedeb8ddc5c19195818f083e0e2971cd98757acdc ++
    toBytes 30 0x2b5e10b8f519ffd1ebb2a16c6a4f03562f7e65f5be32606137008d8b3ddf)]

theorem slotZlib_lossless : (tabledZlib slotStreams).Lossless :=
  tabledZlib_lossless (by decide +kernel)

abbrev slotScheme : Scheme Point2D :=
  plainScheme (tabledCurve slotPoints) sampleLogFloor (tabledSha256 slotHashes)
    (tabledZlib slotStreams) (tabledSetup slotPoints slotSecret)

theorem slotSecret_square (root : Nat) (known : rootOfUnityCandidates.lookup 256 = some root) :
    (slotSecret : ZMod CURVE_ORDER) = root ^ 2 := by
  cases known
  rw [← Nat.cast_pow, ZMod.natCast_eq_natCast_iff']
  decide

theorem slots_consistent :
    (VerkleTrees.insert slotScheme lowKey.bytes fullValue emptyTree).2.disk.db.Consistent ∧
    (VerkleTrees.insert slotScheme highKey.bytes shortValue
      (VerkleTrees.insert slotScheme lowKey.bytes fullValue emptyTree).2).2.disk.db.Consistent := by
  rw [slotScheme, plainScheme_entry (tabledSetup_made slotPoints slotSecret) (by decide)
    slotSecret_square]
  decide +kernel

end Sample

/-- In a run of inserts in their places every value is kept. -/
theorem values_kept (curve : Curve Point2D G1 G2 FQ12) (logFloor : Nat → Nat)
    (sha256 : Bytes → Bytes) {zlib : Zlib} (lossless : zlib.Lossless) {secret : Nat}
    {setup : SetupObject G1 G2} (made : verkleKzgSetup curve secret 256 = .ok setup)
    {run : List (Word × Bytes)} {t : VerkleTree Point2D}
    (grown : Grown (plainScheme curve logFloor sha256 zlib setup) 256 run t) {key : Word}
    {value : Bytes} (placed : InPlace 256 run key value)
    (valid : (VerkleTrees.insert (plainScheme curve logFloor sha256 zlib setup) key.bytes value
      t).2.disk.db.Consistent) :
    (VerkleTrees.insert (plainScheme curve logFloor sha256 zlib setup) key.bytes value t).1 =
        .ok () ∧
      VerkleTrees.get (plainScheme curve logFloor sha256 zlib setup)
        (VerkleTrees.insert (plainScheme curve logFloor sha256 zlib setup) key.bytes value t).2
          key.bytes = .ok (some (ofBytes value)) ∧
      ∀ other : Word, other ≠ key →
        VerkleTrees.get (plainScheme curve logFloor sha256 zlib setup)
          (VerkleTrees.insert (plainScheme curve logFloor sha256 zlib setup) key.bytes value t).2
            other.bytes =
          VerkleTrees.get (plainScheme curve logFloor sha256 zlib setup) t other.bytes := by
  obtain ⟨k, w, bits, _, ready⟩ := setup_ready (Or.inr rfl) made
  have positive : NeZero (plainScheme curve logFloor sha256 zlib setup).width :=
    width_neZero (plainBackend curve logFloor sha256 zlib) ready
  have same : 256 = (plainScheme curve logFloor sha256 zlib setup).width := (made_width made).symm
  have lawful : Lawful (plainScheme curve logFloor sha256 zlib setup) :=
    ready_lawful (plainFormat_faithful sha256 lossless) ready
  have aligned : Aligned (plainScheme curve logFloor sha256 zlib setup).width bits := ready.aligned
  exact insert_kept lawful aligned (Nat.le_of_eq same.symm) (grown_width same grown)
    (inPlace_width same placed) valid

theorem values_kept_sample :
    let before := (VerkleTrees.insert slotScheme lowKey.bytes fullValue emptyTree).2
    let after := VerkleTrees.insert slotScheme highKey.bytes shortValue before
    after.1 = .ok () ∧
      VerkleTrees.get slotScheme after.2 highKey.bytes = .ok (some 5) ∧
      VerkleTrees.get slotScheme after.2 lowKey.bytes = .ok (some 7) ∧
      ∀ other : Word, other ≠ highKey →
        VerkleTrees.get slotScheme after.2 other.bytes =
          VerkleTrees.get slotScheme before other.bytes := by
  obtain ⟨consistent, consistent'⟩ := slots_consistent
  unfold slotScheme at consistent consistent' ⊢
  have five : ofBytes shortValue = 5 := by decide
  have seven : ofBytes fullValue = 7 := by decide
  have apart : lowKey ≠ highKey := by decide
  have higher : ¬ suffixOf 256 highKey < suffixOf 256 lowKey := by decide
  have placed : InPlace 256 [] lowKey fullValue := by
    constructor
    · decide
    all_goals
      intro other v found
      cases found
  have first {other : Word} {v : Bytes} (found : lastInserted [(lowKey, fullValue)] other = some v) :
      other = lowKey ∧ v = fullValue := by
    rw [← List.nil_append [(lowKey, fullValue)], lastInserted_append] at found
    split at found
    · cases found
      exact ⟨‹_›, rfl⟩
    · cases found
  have placed' : InPlace 256 [(lowKey, fullValue)] highKey shortValue := by
    refine ⟨by decide, fun other v found _ order => ?_, fun other v found _ _ => ?_⟩
    · exact absurd ((first found).1 ▸ order) higher
    · obtain ⟨rfl, rfl⟩ := first found
      exact toBytes_length 32 7
  obtain ⟨_, answer, _⟩ := values_kept (tabledCurve slotPoints) sampleLogFloor
    (tabledSha256 slotHashes) slotZlib_lossless (tabledSetup_made slotPoints slotSecret)
    Grown.empty placed consistent
  obtain ⟨ran, answer', others⟩ := values_kept (tabledCurve slotPoints) sampleLogFloor
    (tabledSha256 slotHashes) slotZlib_lossless (tabledSetup_made slotPoints slotSecret)
    (Grown.empty.insert lowKey fullValue placed) placed' consistent'
  rw [five] at answer'
  rw [seven] at answer
  exact ⟨ran, answer', (others lowKey apart).trans answer, others⟩

/-- A value of 33 bytes comes back as its first 32. -/
theorem long_value_cut :
    let after := VerkleTrees.insert unitScheme zeroKey.bytes longValue emptyTree
    verkleKzgSetup (tabledCurve unitPoints) 1 256 = .ok (tabledSetup unitPoints 1) ∧
      (tabledZlib unitStreams).Lossless ∧ after.1 = .ok () ∧ after.2.disk.db.Consistent ∧
      VerkleTrees.get unitScheme after.2 zeroKey.bytes = .ok (some (256 ^ 31)) ∧
      ofBytes longValue = 256 ^ 32 := by
  refine ⟨tabledSetup_made unitPoints 1, unitZlib_lossless, ?_⟩
  rw [unitScheme, plainScheme_entry (tabledSetup_made unitPoints 1) (i := 0) (by decide)
    (fun _ _ => by simp)]
  decide +kernel

end ValueLengths
