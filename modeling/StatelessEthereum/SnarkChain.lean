import StatelessEthereum.SnarkWitness
import StatelessEthereum.MerkleCollect
import Mathlib.Data.List.Forall2

/- The batch inputs of the SNARK prover are hash chains from the leaf to the root. -/
namespace SnarkChain
open PythonError BigEndian MerkleNodes MerkleForms PutLog DiskLog CompactTrie
open NibblePaths hiding ofBytes
open MerkleTrees hiding insert get
open MerkleStorage MerkleRefinement MerkleRuns MerkleCollect ZkEncoding PoseidonMode SnarkWitness
open PoseidonTrie (FIELD_MOD sampleKey sampleValue)

/- The chunks of a node, by what its form says. -/

def chunkCount : Form → Nat
  | .leaf _ _ => 8
  | .ext _ _ => 5
  | .branch _ _ => 21

theorem dataField_length {v : Bytes} (short : v.length ≤ 96) : (dataField v).length = 128 := by
  rw [dataField, List.length_append, toBytes_length, ljust_length short]

theorem layout_length {form : Form} (valid : Storable zkLimits form) :
    (layout form).length = 32 * chunkCount form := by
  cases form with
  | leaf p v =>
    simp only [layout, chunkCount, List.length_append, toBytes_length,
      pathField_length (path_fits valid.1 true), dataField_length valid.2]
  | ext p r =>
    simp only [layout, chunkCount, List.length_append, toBytes_length,
      pathField_length (path_fits valid.1 false), valid.2.1]
  | branch rs v =>
    obtain ⟨count, slots, _, value⟩ := valid
    have short : v.length ≤ 96 := by
      rcases value with rfl | fits
      · simp
      · exact fits
    simp only [layout, chunkCount, List.length_append, toBytes_length, slots_length count slots,
      dataField_length short]

theorem fieldElements_layout {form : Form} (valid : Storable zkLimits form) :
    fieldElements (layout form) = (List.range (chunkCount form)).map fun i =>
      toField (slice (layout form) (i * 32) (i * 32 + 32)) := by
  have whole := layout_length valid
  have exact : padded (layout form) = layout form := by
    rw [padded, if_neg (by omega)]
  rw [fieldElements, exact, whole, Nat.mul_div_cancel_left _ (by decide)]
  rfl

theorem chunk_layout {form : Form} (valid : Storable zkLimits form) {i : Nat}
    (inside : i < chunkCount form) :
    (fieldElements (layout form))[i]? =
      some (toField (slice (layout form) (i * 32) (i * 32 + 32))) := by
  rw [fieldElements_layout valid, List.getElem?_map, List.getElem?_range inside]
  rfl

theorem leaf_length {p : List Nat} {v : Bytes} (valid : Storable zkLimits (.leaf p v)) :
    slice (layout (.leaf p v)) 128 160 = toBytes 32 v.length := by
  rw [layout, slice_behind (toBytes_length _ _) (by decide),
    slice_behind (pathField_length (path_fits valid.1 true)) (by decide), dataField]
  exact slice_field _ (toBytes_length _ _)

theorem leaf_data {p : List Nat} {v : Bytes} (valid : Storable zkLimits (.leaf p v)) {a : Nat} :
    slice (layout (.leaf p v)) (160 + a) (192 + a) = slice (ljust v 96) a (a + 32) := by
  rw [layout, slice_behind (toBytes_length _ _) (by omega),
    slice_behind (pathField_length (path_fits valid.1 true)) (by omega), dataField,
    slice_behind (toBytes_length _ _) (by omega), show 160 + a - 32 - 96 - 32 = a by omega,
    show 192 + a - 32 - 96 - 32 = a + 32 by omega]

theorem ext_reference {p : List Nat} {r : Bytes} (valid : Storable zkLimits (.ext p r)) :
    slice (layout (.ext p r)) 128 160 = r := by
  rw [layout, slice_behind (toBytes_length _ _) (by decide),
    slice_behind (pathField_length (path_fits valid.1 false)) (by decide)]
  have whole := slice_field [] valid.2.1
  rwa [List.append_nil] at whole

theorem branch_reference {rs : List Bytes} {v : Bytes} (valid : Storable zkLimits (.branch rs v))
    {i : Nat} (inside : i < rs.length) (held : rs[i] ≠ []) :
    slice (layout (.branch rs v)) ((1 + i) * 32) ((1 + i) * 32 + 32) = rs[i] := by
  have chunk := slice_chunk (slot_sized valid.2.1) (dataField v) (i := i) (by simpa using inside)
  rw [layout, slice_behind (toBytes_length _ _) (by omega),
    show (1 + i) * 32 - 32 = i * 32 by omega, show (1 + i) * 32 + 32 - 32 = i * 32 + 32 by omega,
    chunk, List.getElem_map, slotBytes, if_neg held]

/- The sponge of the circuit over padded chunks is the hash of the node. -/

theorem take_padded (elements : List Nat) (zeros i : Nat) (inside : i ≤ elements.length)
    (room : i + BATCH_SIZE ≤ elements.length + zeros) :
    ((elements ++ List.replicate zeros 0).drop i).take BATCH_SIZE = batchAt elements i := by
  have rest : (elements.drop i).length = elements.length - i := List.length_drop
  have enough : BATCH_SIZE - ((elements.drop i).take BATCH_SIZE).length ≤ zeros := by
    rw [List.length_take, rest]
    omega
  rw [List.drop_append_of_le_length inside, List.take_append, batchAt, List.take_replicate]
  congr 2
  rw [List.length_take] at enough ⊢
  omega

theorem absorb_below (worker : Worker) {currentHash : Nat} (small : currentHash < FIELD_MOD)
    (bs : List (List Nat)) : absorb worker currentHash bs < FIELD_MOD := by
  induction bs generalizing currentHash with
  | nil => exact small
  | cons batch bs ih => exact ih (worker.below _)

def nodeHash (worker : Worker) (form : Form) : Nat :=
  absorb worker 0 (batches (fieldElements (layout form)))

theorem nodeHash_below (worker : Worker) (form : Form) : nodeHash worker form < FIELD_MOD :=
  absorb_below worker (by decide) _

theorem toField_reference (worker : Worker) (form : Form) :
    toField (poseidonHashBytes worker (layout form)) = nodeHash worker form := by
  have below := nodeHash_below worker form
  have small : nodeHash worker form < 256 ^ 32 := Nat.lt_trans below (by decide)
  change BigEndian.ofBytes (toBytes 32 (nodeHash worker form)) % FIELD_MOD = _
  rw [ofBytes_toBytes_of_lt small, Nat.mod_eq_of_lt below]

structure Carries (worker : Worker) (form : Form) (chunks : List Nat) (count : Nat) : Prop where
  chunk : ∀ i, i < chunkCount form →
    chunks[i]? = some (toField (slice (layout form) (i * 32) (i * 32 + 32)))
  hash : sponge worker chunks count = nodeHash worker form

theorem chunkCount_small (form : Form) : chunkCount form ≤ 21 := by
  cases form <;> simp [chunkCount]

theorem getNodeData_carries (worker : Worker) {node : Node} {form : Form}
    (shows : Shows node form) (valid : Storable zkLimits form) :
    ∃ chunks count, getNodeData node = .ok (chunks, count) ∧
      Carries worker form chunks count := by
  have few := chunkCount_small form
  have length : (fieldElements (layout form)).length = chunkCount form := by
    rw [fieldElements_layout valid, List.length_map, List.length_range]
  have fits : ¬ MAX_CHUNKS < (fieldElements (layout form) ++
      List.replicate (MAX_CHUNKS - (fieldElements (layout form)).length) 0).length := by
    rw [List.length_append, List.length_replicate, length, MAX_CHUNKS]
    omega
  have made : getNodeData node = .ok (fieldElements (layout form) ++
      List.replicate (MAX_CHUNKS - (fieldElements (layout form)).length) 0,
      ((fieldElements (layout form)).length + BATCH_SIZE - 1) / BATCH_SIZE) := by
    simp only [getNodeData, node_zkEncode shows, bind, Except.bind]
    exact if_neg fits
  refine ⟨_, _, made, ?_, ?_⟩
  · intro i inside
    rw [List.getElem?_append_left (by omega)]
    exact chunk_layout valid inside
  · rw [sponge, nodeHash, batches]
    congr 1
    apply List.map_congr_left
    intro i member
    have inside := List.mem_range.mp member
    rw [length, BATCH_SIZE] at inside
    apply take_padded <;> rw [length] <;> simp only [BATCH_SIZE, MAX_CHUNKS] <;> omega

/- The chain. -/

/-- The chunk of a parent that holds the hash of its child. -/
def childSlot (nodeType nibble : Nat) : Nat := if nodeType = 1 then 1 + nibble else 4

/-- From the hash of a leaf through its parents, lowest first, to a root. -/
def Climbs (worker : Worker) : Nat → List ParentRow → Nat → Prop
  | h, [], root => h = root
  | h, row :: rows, root =>
    row.chunks[childSlot row.nodeType row.nibble]? = some h ∧
      Climbs worker (sponge worker row.chunks row.batches) rows root

theorem climbs_above {worker : Worker} {h m : Nat} {rows : List ParentRow} {row : ParentRow}
    (below : Climbs worker h rows m)
    (held : row.chunks[childSlot row.nodeType row.nibble]? = some m) :
    Climbs worker h (rows ++ [row]) (sponge worker row.chunks row.batches) := by
  induction rows generalizing h with
  | nil =>
    cases below
    exact ⟨held, rfl⟩
  | cons first rows ih => exact ⟨below.1, ih below.2⟩

structure Rows (worker : Worker) (pathObj : NibblePath) (d : Nat) (v : Bytes) (root : Nat)
    (nodes : List Node) (parents : List Node) (leaf : Node) (p : List Nat)
    (rows : List ParentRow) : Prop where
  split : nodes = parents ++ [leaf]
  ends : Shows leaf (.leaf p v)
  storable : Storable zkLimits (.leaf p v)
  each : List.Forall₂ (fun (x : Node × Nat) row => parentRow pathObj x.1 x.2 = .ok row)
    (parents.zip (depthsFrom d parents)) rows
  climbs : Climbs worker (nodeHash worker (.leaf p v)) rows.reverse root

theorem rows_above {worker : Worker} {pathObj : NibblePath} {d : Nat} {v : Bytes} {m : Nat}
    {nodes parents : List Node} {leaf node : Node} {p : List Nat} {rows : List ParentRow}
    {row : ParentRow} {form : Form}
    (below : Rows worker pathObj (d + advance node) v m nodes parents leaf p rows)
    (made : parentRow pathObj node d = .ok row)
    (carries : Carries worker form row.chunks row.batches)
    (held : row.chunks[childSlot row.nodeType row.nibble]? = some m) :
    Rows worker pathObj d v (nodeHash worker form) (node :: nodes) (node :: parents) leaf p
      (row :: rows) := by
  obtain ⟨split, ends, storable, each, climbs⟩ := below
  have top := climbs_above climbs held
  rw [carries.hash, ← List.reverse_cons] at top
  subst split
  exact ⟨rfl, ends, storable, .cons made each, top⟩

section Walk
variable {worker : Worker} {db : Store Bytes Bytes}

theorem toField_refOf {t : NibbleTrie} (occupied : t ≠ .empty) :
    toField (refOf (zkCodec worker) t) = nodeHash worker (formOf (zkCodec worker) t) := by
  rw [refOf_occupied occupied]
  exact toField_reference worker _

theorem storable_trie (good : Admissible zkLimits db) {t : NibbleTrie}
    (valid : Valid zkLimits t) (stored : Written (zkCodec worker) db t) (occupied : t ≠ .empty) :
    Storable zkLimits (formOf (zkCodec worker) t) :=
  storable_formOf valid occupied fun _ child held => written_refOk good (written_child stored child) held

/-- By induction on the trie: below an extension or a branch the chain of the
    child ends in the hash that the parent holds for it. -/
theorem walk_climbs (good : Admissible zkLimits db) {t : NibbleTrie}
    (valid : Valid zkLimits t) (stored : Written (zkCodec worker) db t) {pathObj : NibblePath}
    {d : Nat} {k : List Nat} (here : pathObj.remaining.drop d = k) {v : Bytes}
    (found : lookup t k = some v) (even : ∀ l w, lookup t l = some w → l.length = k.length)
    {nodes : List Node} (shows : List.Forall₂ Shows nodes (formsAlong (zkCodec worker) t k)) :
    ∃ parents leaf p rows, Rows worker pathObj d v
      (nodeHash worker (formOf (zkCodec worker) t)) nodes parents leaf p rows := by
  induction t generalizing d k nodes with
  | empty => simp [lookup] at found
  | leaf p w =>
    simp only [lookup, Option.ite_none_right_eq_some, Option.some.injEq] at found
    obtain ⟨rfl, rfl⟩ := found
    cases shows with
    | cons ends rest =>
      cases rest
      exact ⟨[], _, p, [], rfl, ends, storable_trie good valid stored (by simp), .nil, rfl⟩
  | ext p t ih =>
    simp only [lookup, Option.ite_none_right_eq_some] at found
    obtain ⟨covered, found⟩ := found
    have occupied := below_ext valid
    cases shows with
    | cons first rest =>
      rename_i node nodes
      have fits := storable_trie good valid stored (by simp)
      obtain ⟨chunks, count, data, carries⟩ := getNodeData_carries worker first fits
      cases node <;> simp only [Shows] at first
      rename_i nodePath nextRef
      obtain ⟨width, rfl, rfl⟩ := first
      have deeper : pathObj.remaining.drop (d + nodePath.len) =
          k.drop nodePath.remaining.length := by
        rw [← here, List.drop_drop, NibblePath.remaining_length]
      have shorter (l : List Nat) (w : Bytes) (answer : lookup t l = some w) :
          l.length = (k.drop nodePath.remaining.length).length := by
        have whole := even (nodePath.remaining ++ l) w (by simpa [lookup] using answer)
        rw [List.length_append] at whole
        rw [List.length_drop]
        omega
      obtain ⟨parents, leaf, q, rows, below⟩ := ih (valid_child valid .ext)
        (written_child stored .ext) deeper found shorter rest
      have held : chunks[4]? = some (nodeHash worker (formOf (zkCodec worker) t)) := by
        rw [carries.chunk 4 (Nat.lt_succ_self 4), ext_reference fits, toField_refOf occupied]
      have made : parentRow pathObj (.extension nodePath (.bytes (refOf (zkCodec worker) t))) d =
          .ok ⟨0, 0, chunks, count⟩ := by
        simp only [parentRow, data, bind, Except.bind]
      exact ⟨_, leaf, q, _, rows_above below made carries held⟩
  | branch cs w ih =>
    cases k with
    | nil =>
      -- a branch has keys below it, so no key ends at one
      obtain ⟨i, _, occupied⟩ := occupied_slot valid
      obtain ⟨l, u, answer⟩ := occupied_has_key (valid.canonical.1 i) occupied
      have whole := even (i :: l) u answer
      simp at whole
    | cons i rest =>
      simp only [lookup] at found
      have occupied := lookup_occupied found
      have inside := slot_inside valid occupied
      cases shows with
      | cons first later =>
        rename_i node nodes
        have fits := storable_trie good valid stored (by simp)
        obtain ⟨chunks, count, data, carries⟩ := getNodeData_carries worker first fits
        cases node <;> simp only [formOf, Shows] at first
        rename_i branches value
        have deeper : pathObj.remaining.drop (d + 1) = rest := by
          rw [← List.drop_drop, here]
          rfl
        have shorter (l : List Nat) (w : Bytes) (answer : lookup (cs i) l = some w) :
            l.length = rest.length := by
          have whole := even (i :: l) w answer
          simpa using whole
        obtain ⟨parents, leaf, q, rows, below⟩ := ih i (valid_child valid (.slot i))
          (written_child stored (.slot i)) deeper found shorter later
        have some : refOf (zkCodec worker) (cs i) ≠ [] := fun none =>
          occupied ((refOf_eq_nil_iff _).mp none)
        have chunk := branch_reference fits (i := i) (by simpa using inside) (by simpa using some)
        simp only [List.getElem_map, List.getElem_range] at chunk
        have held : chunks[1 + i]? = Option.some (nodeHash worker (formOf (zkCodec worker) (cs i))) := by
          rw [carries.chunk (1 + i) (by simp only [formOf, chunkCount]; omega), ← toField_refOf occupied,
            ← chunk]
          rfl
        have nibble : pathObj.atIndex d = .ok i := by
          have digit : (pathObj.remaining.drop d)[0]? = Option.some i := by rw [here]; rfl
          rw [List.getElem?_drop, Nat.add_zero] at digit
          simp [NibblePath.atIndex, NibblePath.digit?_eq, digit]
        have made : parentRow pathObj (.branch branches value) d = .ok ⟨1, i, chunks, count⟩ := by
          simp only [parentRow, data, nibble, bind, Except.bind]
        exact ⟨_, leaf, q, _, rows_above below made carries held⟩

end Walk

/- Entries. -/

/-- The hash of a child stands in its parent, up to the public root. -/
def HashesUp (worker : Worker) (entry : Entry) : List Nat → Nat → Prop
  | [], h => h = entry.publics.rootPub
  | j :: rest, h =>
    (entry.nodeChunks.getD j [])[childSlot (entry.nodeTypes.getD j 0)
        (entry.nodeNibbles.getD j 0)]? = some h ∧
      HashesUp worker entry rest
        (sponge worker (entry.nodeChunks.getD j []) (entry.nodeBatches.getD j 0))

structure HashChain (worker : Worker) (entry : Entry) : Prop where
  length : entry.leafChunks[4]? = some entry.publics.lengthPub
  val0 : entry.leafChunks[5]? = some entry.publics.valPub0
  val1 : entry.leafChunks[6]? = some entry.publics.valPub1
  val2 : entry.leafChunks[7]? = some entry.publics.valPub2
  hashes : HashesUp worker entry (List.range entry.actualDepth)
    (sponge worker entry.leafChunks entry.leafBatches)

/-- The arrays of an entry list these rows first. -/
structure Lists (entry : Entry) (rows : List ParentRow) : Prop where
  nodeType : ∀ (j : Nat) row, rows[j]? = some row → entry.nodeTypes.getD j 0 = row.nodeType
  nibble : ∀ (j : Nat) row, rows[j]? = some row → entry.nodeNibbles.getD j 0 = row.nibble
  chunks : ∀ (j : Nat) row, rows[j]? = some row → entry.nodeChunks.getD j [] = row.chunks
  batches : ∀ (j : Nat) row, rows[j]? = some row → entry.nodeBatches.getD j 0 = row.batches

theorem mapped_first {α β : Type} (f : α → β) (rows : List α) (more : List β) (default : β)
    (j : Nat) (row : α) (here : rows[j]? = some row) :
    (rows.map f ++ more).getD j default = f row := by
  have inside : j < rows.length := (List.getElem?_eq_some_iff.mp here).1
  rw [List.getD_eq_getElem?_getD, List.getElem?_append_left (by simpa using inside),
    List.getElem?_map, here]
  rfl

theorem paddedEntry_lists (publics : PublicSignals) (leafChunks : List Nat) (leafBatches : Nat)
    (rows : List ParentRow) (actualDepth : Nat) :
    Lists (paddedEntry publics leafChunks leafBatches rows actualDepth) rows where
  nodeType := mapped_first ParentRow.nodeType rows _ 0
  nibble := mapped_first ParentRow.nibble rows _ 0
  chunks := mapped_first ParentRow.chunks rows _ []
  batches := mapped_first ParentRow.batches rows _ 0

theorem climbs_hashes {worker : Worker} {entry : Entry} {rows : List ParentRow}
    (lists : Lists entry rows) {tail : List ParentRow} {s h : Nat} (here : rows.drop s = tail)
    (climbs : Climbs worker h tail entry.publics.rootPub) :
    HashesUp worker entry (List.range' s tail.length) h := by
  induction tail generalizing s h with
  | nil => exact climbs
  | cons row tail ih =>
    obtain ⟨held, above⟩ := climbs
    have first : rows[s]? = some row := by
      rw [← List.head?_drop, here]
      rfl
    have later : rows.drop (s + 1) = tail := by
      rw [← List.drop_drop, here]
      rfl
    rw [List.length_cons, List.range'_succ]
    simp only [HashesUp, lists.nodeType s row first, lists.nibble s row first,
      lists.chunks s row first, lists.batches s row first]
    exact ⟨held, ih later above⟩

theorem leaf_chain {worker : Worker} {p : List Nat} {v : Bytes} {chunks : List Nat} {count : Nat}
    (fits : Storable zkLimits (.leaf p v)) (carries : Carries worker (.leaf p v) chunks count)
    (root : Bytes) :
    chunks[4]? = some (publicSignals root v).lengthPub ∧
    chunks[5]? = some (publicSignals root v).valPub0 ∧
    chunks[6]? = some (publicSignals root v).valPub1 ∧
    chunks[7]? = some (publicSignals root v).valPub2 := by
  have short : v.length ≤ 96 := fits.2
  have small : v.length < FIELD_MOD := Nat.lt_of_le_of_lt short (by decide)
  have fieldLength : toField (toBytes 32 v.length) = v.length := by
    rw [toField, ofBytes_toBytes_of_lt (by omega), Nat.mod_eq_of_lt small]
  refine ⟨?_, ?_, ?_, ?_⟩
  · rw [carries.chunk 4 (by simp [chunkCount]), leaf_length fits, fieldLength]
    rfl
  · rw [carries.chunk 5 (by simp [chunkCount]), leaf_data fits (a := 0)]
    rfl
  · rw [carries.chunk 6 (by simp [chunkCount]), leaf_data fits (a := 32)]
    rfl
  · rw [carries.chunk 7 (by simp [chunkCount]), leaf_data fits (a := 64)]
    rfl

section Walk
variable {worker : Worker} {db : Store Bytes Bytes}

theorem formsAlong_storable (good : Admissible zkLimits db) {t : NibbleTrie}
    (valid : Valid zkLimits t) (stored : Written (zkCodec worker) db t) (k : List Nat) :
    ∀ form ∈ formsAlong (zkCodec worker) t k, Storable zkLimits form := by
  have top (occupied : t ≠ .empty) := storable_trie good valid stored occupied
  induction t generalizing k with
  | empty => simp [formsAlong]
  | leaf p v =>
    have fits := top (by simp)
    simpa [formsAlong, formOf] using fits
  | ext p t ih =>
    have fits := top (by simp)
    have below := ih (valid_child valid .ext) (written_child stored .ext) (k.drop p.length)
      (storable_trie good (valid_child valid .ext) (written_child stored .ext))
    rw [formsAlong, List.forall_mem_cons]
    exact ⟨fits, below⟩
  | branch cs w ih =>
    have fits := top (by simp)
    cases k with
    | nil => simpa [formsAlong] using fits
    | cons i rest =>
      have below := ih i (valid_child valid (.slot i)) (written_child stored (.slot i)) rest
        (storable_trie good (valid_child valid (.slot i)) (written_child stored (.slot i)))
      rw [formsAlong, List.forall_mem_cons]
      exact ⟨fits, below⟩

theorem decode_forms {forms : List Form} (fits : ∀ form ∈ forms, Storable zkLimits form) :
    ∃ nodes, (forms.map layout).mapM zkDecode = .ok nodes ∧ List.Forall₂ Shows nodes forms := by
  obtain ⟨nodes, decoded, shows⟩ := PythonError.mapM_ok (R := fun form node => Shows node form)
    (f := fun form => zkDecode (layout form)) fun form member => node_zkDecode (storable_codable (fits form member))
  refine ⟨nodes, ?_, shows.flip⟩
  rw [List.mapM_map]
  exact decoded

theorem depthsFrom_length (d : Nat) (nodes : List Node) :
    (depthsFrom d nodes).length = nodes.length := by
  induction nodes generalizing d with
  | nil => rfl
  | cons node rest ih => rw [depthsFrom, List.length_cons, List.length_cons, ih]

theorem batchEntry_chain (good : Admissible zkLimits db) {t : NibbleTrie}
    (valid : Valid zkLimits t) (stored : Written (zkCodec worker) db t) {key v root : Bytes}
    (found : lookup t (nibbles key) = some v)
    (even : ∀ l w, lookup t l = some w → l.length = (nibbles key).length)
    (top : root = refOf (zkCodec worker) t) :
    ∃ entry, batchEntry root key (.bytes v)
        ((formsAlong (zkCodec worker) t (nibbles key)).map layout) = .ok entry ∧
      entry.publics = publicSignals root v ∧ HashChain worker entry := by
  obtain ⟨nodes, decoded, shows⟩ := decode_forms (formsAlong_storable good valid stored _)
  obtain ⟨pathObj, parsed, digits⟩ : ∃ pathObj, NibblePaths.ofBytes key 0 16 = .ok pathObj ∧
      pathObj.remaining = nibbles key := by
    obtain ⟨pathObj, parsed, _, digits⟩ := ofBytes_hex key 0
    exact ⟨pathObj, parsed, digits⟩
  have start : pathObj.remaining.drop 0 = nibbles key := digits
  obtain ⟨parents, leaf, p, rows, split, ends, fits, each, climbs⟩ :=
    walk_climbs good valid stored start found even shows
  obtain ⟨chunks, count, data, carries⟩ := getNodeData_carries worker ends fits
  have parted : splitLast nodes = .ok (parents, leaf) := by
    simp [splitLast, split]
  have made : parentRows pathObj parents = .ok rows.reverse :=
    mapM_of_each (List.forall₂_reverse_iff.mpr each)
  obtain ⟨length, val0, val1, val2⟩ := leaf_chain fits carries root
  have counted : rows.reverse.length = parents.length := by
    rw [List.length_reverse, ← each.length_eq, List.length_zip, depthsFrom_length, Nat.min_self]
  have root_pub : (publicSignals root v).rootPub = nodeHash worker (formOf (zkCodec worker) t) := by
    rw [← toField_refOf (lookup_occupied found), ← top]
    rfl
  have built : batchEntry root key (.bytes v)
      ((formsAlong (zkCodec worker) t (nibbles key)).map layout) =
        .ok (paddedEntry (publicSignals root v) chunks count rows.reverse parents.length) := by
    simp only [batchEntry, valueBytes, decoded, parsed, parted, data, made, bind, Except.bind]
  have lists := paddedEntry_lists (publicSignals root v) chunks count rows.reverse parents.length
  have climbed : Climbs worker (nodeHash worker (.leaf p v)) rows.reverse
      (publicSignals root v).rootPub := root_pub ▸ climbs
  have hashes := climbs_hashes lists List.drop_zero climbed
  rw [counted, ← carries.hash, ← List.range_eq_range'] at hashes
  exact ⟨_, built, rfl, length, val0, val1, val2, hashes⟩

end Walk

/- Whole batches. -/

theorem chunkAt_get {α : Type} {items : List α} {i : Nat} {item : α}
    (here : items[i]? = some item) :
    (chunkAt items (i / KEYS_BATCH_SIZE * KEYS_BATCH_SIZE))[i % KEYS_BATCH_SIZE]? = some item := by
  have turn := Nat.div_add_mod' i KEYS_BATCH_SIZE
  have slot : i % KEYS_BATCH_SIZE < KEYS_BATCH_SIZE := Nat.mod_lt _ (by decide)
  have chunk : ((items.drop (i / KEYS_BATCH_SIZE * KEYS_BATCH_SIZE)).take
      KEYS_BATCH_SIZE)[i % KEYS_BATCH_SIZE]? = some item := by
    rw [List.getElem?_take_of_lt slot, List.getElem?_drop, turn, here]
  have inside := (List.getElem?_eq_some_iff.mp chunk).1
  unfold chunkAt
  simp only
  split
  · rw [List.getElem?_append_left inside, chunk]
  · exact chunk

theorem chunkAt_subset {α : Type} (items : List α) (i : Nat) : chunkAt items i ⊆ items := by
  have part : (items.drop i).take KEYS_BATCH_SIZE ⊆ items := fun _ member =>
    List.mem_of_mem_drop (List.mem_of_mem_take member)
  unfold chunkAt
  simp only
  split
  · rename_i last final
    intro x member
    rcases List.mem_append.mp member with old | copy
    · exact part old
    · rw [List.eq_of_mem_replicate copy]
      exact part (List.mem_of_getLast? final)
  · exact part

section Batches
variable (worker : Worker) (run : Run)

/-- The entry of an inserted key, from what the trie answers for it. -/
structure Proven (key : Bytes) (value : PyObj) (proof : List Bytes) (entry : Entry) : Prop where
  last : ∃ v, lastInserted run key = some v ∧ value = .bytes v ∧
    entry.publics = publicSignals (rootHash (zkScheme worker) (insertRun (zkScheme worker) run).2) v
  chain : HashChain worker entry

theorem key_proven (entries : ∀ e ∈ run, e.1.bytes.length = 32 ∧ e.2.bytes.length ≤ 96)
    (good : Good zkLimits (insertRun (zkScheme worker) run).2) {key : Bytes}
    (inserted : ∃ e ∈ run, e.1.bytes = key) :
    ∃ value proof entry,
      MerkleTrees.get (zkScheme worker) false (insertRun (zkScheme worker) run).2 key = .ok value ∧
      getProofTree (zkScheme worker) false (insertRun (zkScheme worker) run).2 key = .ok proof ∧
      batchEntry (rootHash (zkScheme worker) (insertRun (zkScheme worker) run).2) key value proof =
        .ok entry ∧ Proven worker run key value proof entry := by
  obtain ⟨e, member, rfl⟩ := inserted
  obtain ⟨_, shown⟩ := zk_run worker entries good
  obtain ⟨v, last⟩ := lastInserted_of_member member
  have found := (trieOf_lookup run e.1.bytes).trans last
  have even (l : List Nat) (w : Bytes) (answer : lookup (trieOf run.plain) l = some w) :
      l.length = (nibbles e.1.bytes).length := by
    rw [trieOf_lengths (fun e member => (entries e member).1) answer, nibbles_length,
      (entries e member).1]
  obtain ⟨entry, built, publics, chain⟩ := batchEntry_chain good shown.valid shown.written found
    even (rootHash_occupied shown (lookup_occupied found))
  exact ⟨_, _, entry, get_lookup shown good found, getProofTree_forms good shown found, built,
    ⟨v, last, rfl, publics⟩, chain⟩

variable {worker run} in
/-- What the prover pairs up for its keys is what the trie answers for each. -/
theorem claims_proven (entries : ∀ e ∈ run, e.1.bytes.length = 32 ∧ e.2.bytes.length ≤ 96)
    (good : Good zkLimits (insertRun (zkScheme worker) run).2) {keys : List Bytes}
    (inserted : ∀ key ∈ keys, ∃ e ∈ run, e.1.bytes = key) {values : List PyObj}
    {proofs : List (List Bytes)}
    (gotten : keys.mapM (MerkleTrees.get (zkScheme worker) false
      (insertRun (zkScheme worker) run).2) = .ok values)
    (proven : keys.mapM (getProofTree (zkScheme worker) false
      (insertRun (zkScheme worker) run).2) = .ok proofs)
    {i : Nat} {key : Bytes} (here : keys[i]? = some key) :
    ∃ value proof entry, (keys.zip (values.zip proofs))[i]? = some (key, value, proof) ∧
      batchEntry (rootHash (zkScheme worker) (insertRun (zkScheme worker) run).2) key value proof =
        .ok entry ∧ Proven worker run key value proof entry := by
  obtain ⟨value, proof, entry, got, collected, built, known⟩ :=
    key_proven worker run entries good (inserted key (List.mem_of_getElem? here))
  obtain ⟨value', got', first⟩ := mapM_at gotten here
  obtain ⟨proof', collected', second⟩ := mapM_at proven here
  cases got.symm.trans got'
  cases collected.symm.trans collected'
  refine ⟨value, proof, entry, ?_, built, known⟩
  simp only [List.getElem?_zip_eq_some]
  exact ⟨here, first, second⟩

/-- Every inserted key gets its hash chain, at its slot of its batch. -/
theorem witness_chain (entries : ∀ e ∈ run, e.1.bytes.length = 32 ∧ e.2.bytes.length ≤ 96)
    (nonzero : ∀ batch, worker.hash batch ≠ 0)
    (distinct : Separates (poseidonHashBytes worker)
      (storedEncodings (insertRun (zkScheme worker) run).2))
    (keys : List Bytes) (inserted : ∀ key ∈ keys, ∃ e ∈ run, e.1.bytes = key) :
    ∃ batches, generateBatches worker (insertRun (zkScheme worker) run).2 keys = .ok batches ∧
      ∀ (i : Nat) key, keys[i]? = some key → ∃ v batch entry, lastInserted run key = some v ∧
        batches[i / KEYS_BATCH_SIZE]? = some batch ∧ batch[i % KEYS_BATCH_SIZE]? = some entry ∧
        entry.publics =
          publicSignals (rootHash (zkScheme worker) (insertRun (zkScheme worker) run).2) v ∧
        HashChain worker entry := by
  have good := zk_good worker run (fun _ _ x _ => nonzero x) distinct
  obtain ⟨values, gotten, _⟩ := PythonError.mapM_ok (R := fun _ _ => True)
    (f := MerkleTrees.get (zkScheme worker) false (insertRun (zkScheme worker) run).2)
    fun key member => by
      obtain ⟨value, _, _, got, _⟩ := key_proven worker run entries good (inserted key member)
      exact ⟨value, got, trivial⟩
  obtain ⟨proofs, proven, _⟩ := PythonError.mapM_ok (R := fun _ _ => True)
    (f := getProofTree (zkScheme worker) false (insertRun (zkScheme worker) run).2)
    fun key member => by
      obtain ⟨_, proof, _, _, collected, _⟩ := key_proven worker run entries good (inserted key member)
      exact ⟨proof, collected, trivial⟩
  have claim {i : Nat} {key : Bytes} (here : keys[i]? = some key) :=
    claims_proven entries good inserted gotten proven here
  generalize pairs : keys.zip (values.zip proofs) = claims at claim
  let root := rootHash (zkScheme worker) (insertRun (zkScheme worker) run).2
  have every : ∀ c ∈ claims, ∃ entry, batchEntry root c.1 c.2.1 c.2.2 = .ok entry ∧
      Proven worker run c.1 c.2.1 c.2.2 entry := by
    rintro ⟨key, value, proof⟩ member
    obtain ⟨i, place⟩ := List.mem_iff_getElem?.mp member
    have here : keys[i]? = some key := by
      rw [← pairs, List.getElem?_zip_eq_some] at place
      exact place.1
    obtain ⟨value, proof, entry, found, built, known⟩ := claim here
    cases place.symm.trans found
    exact ⟨entry, built, known⟩
  obtain ⟨batches, made, each⟩ := PythonError.mapM_ok
    (R := fun chunkIdx batch => List.Forall₂ (fun c entry => Proven worker run c.1 c.2.1 c.2.2 entry)
      (chunkAt claims (chunkIdx * KEYS_BATCH_SIZE)) batch)
    (f := fun chunkIdx => (chunkAt claims (chunkIdx * KEYS_BATCH_SIZE)).mapM fun c =>
      batchEntry root c.1 c.2.1 c.2.2)
    (l := List.range ((keys.length + KEYS_BATCH_SIZE - 1) / KEYS_BATCH_SIZE))
    fun _ _ => PythonError.mapM_ok fun c member => every c (chunkAt_subset _ _ member)
  refine ⟨batches, ?_, ?_⟩
  · simp only [generateBatches, gotten, proven, pairs, bind, Except.bind]
    exact made
  · intro i key here
    have inside := (List.getElem?_eq_some_iff.mp here).1
    have turn : i / KEYS_BATCH_SIZE < (keys.length + KEYS_BATCH_SIZE - 1) / KEYS_BATCH_SIZE := by
      simp only [KEYS_BATCH_SIZE]
      omega
    obtain ⟨value, proof, _, paired, _⟩ := claim here
    obtain ⟨batch, listed, entriesOf⟩ := each_at each (List.getElem?_range turn)
    obtain ⟨entry, slot, ⟨v, last, _, publics⟩, chain⟩ := each_at entriesOf (chunkAt_get paired)
    exact ⟨v, batch, entry, last, listed, slot, publics, chain⟩

end Batches

/-- Two keys below an extension and a branch. -/
def pairRun : Run := [(sampleKey 0x00, sampleValue 7), (sampleKey 0x01, sampleValue 8)]

theorem witness_chain_sample :
    ∃ batches, generateBatches sampleWorker (insertRun (zkScheme sampleWorker) pairRun).2
        [(sampleKey 0x01).bytes] = .ok batches ∧
      ∀ (i : Nat) key, [(sampleKey 0x01).bytes][i]? = some key → ∃ v batch entry,
        lastInserted pairRun key = some v ∧ batches[i / KEYS_BATCH_SIZE]? = some batch ∧
        batch[i % KEYS_BATCH_SIZE]? = some entry ∧
        entry.publics = publicSignals
          (rootHash (zkScheme sampleWorker) (insertRun (zkScheme sampleWorker) pairRun).2) v ∧
        HashChain sampleWorker entry :=
  witness_chain sampleWorker pairRun (by decide) (fun _ => Nat.succ_ne_zero _) (by decide +kernel)
    [(sampleKey 0x01).bytes] (by decide)

end SnarkChain
