import StatelessEthereum.CommitmentPaths

/- Queries of the folding protocol (zkSTARK/fri.py): the response to an index and
   its check, layer after layer. Neither is called by `prove` or `verify`. -/
namespace FriQueries
open BigEndian PythonError FiatShamir LowDegree FriProtocol CommitmentPaths StateEffect LockStep

structure LayerData where
  value : UInt64
  authPath : List Bytes
  siblingIndex : Nat
  siblingValue : UInt64
  deriving DecidableEq

structure QueryResponse where
  index : Nat
  layers : List LayerData
  deriving DecidableEq

/-- `items[0]` -/
def firstItem {α : Type} : List α → Except PyError α
  | [] => .error .indexError
  | a :: _ => .ok a

section Queries
variable (sha256 : Digest) (ops : FieldOps)

def respondLayers : Nat → List (List UInt64) → Except PyError (List LayerData)
  | _, [] => .ok []
  | currentIdx, poly :: polys => do
    let tree ← newTree sha256 poly
    let value ← itemAt currentIdx poly
    let authPath ← getAuthenticationPath tree currentIdx
    let siblingValue := poly.getD (currentIdx ^^^ 1) value
    let layers ← respondLayers (currentIdx / 2) polys
    .ok (⟨value, authPath, currentIdx ^^^ 1, siblingValue⟩ :: layers)

/-- `FRIProver._generate_query_response` -/
def generateQueryResponse (index : Nat) (proof : FRIProof) : Except PyError QueryResponse := do
  let layers ← respondLayers sha256 index
    ((proof.layerPolynomials.zip proof.layerCommitments).map Prod.fst)
  .ok ⟨index, layers⟩

/-- The loop of `_verify_query`; the polynomials and the challenges are those of
    the layers that are left. -/
def verifyLayers : Nat → List LayerData → List (List UInt64) → List UInt64 → Except PyError Bool
  | _, [], _, _ => .ok true
  | currentIdx, layerData :: later, polys, alphas => do
    let poly ← firstItem polys
    let tree ← newTree sha256 poly
    if verifyPath sha256 tree currentIdx layerData.value layerData.authPath then
      match later with
      | [] => .ok true
      | next :: _ => do
        let alpha ← firstItem alphas
        let expectedFolded := ops.add layerData.value (ops.mul alpha layerData.siblingValue)
        if expectedFolded ≠ next.value then .ok false
        else verifyLayers (currentIdx / 2) later polys.tail alphas.tail
    else .ok false

/-- `FRIVerifier._verify_query` -/
def verifyQuery (response : QueryResponse) (proof : FRIProof) (alphas : List UInt64) :
    Except PyError Bool :=
  verifyLayers sha256 ops response.index response.layers proof.layerPolynomials alphas

/-- On every layer but the last the value at the index and its neighbour fold to
    the entry that the prover folds from the two halves. -/
def FoldsAlong : Nat → List (List UInt64) → List UInt64 → Prop
  | index, poly :: next :: polys, alpha :: alphas =>
    ops.add (poly.getD index 0) (ops.mul alpha (poly.getD (index ^^^ 1) 0)) =
        ops.add (poly.getD (index / 2) 0)
          (ops.mul alpha (poly.getD (index / 2 + poly.length / 2) 0)) ∧
      FoldsAlong (index / 2) (next :: polys) alphas
  | _, _, _ => True

end Queries

section Honest
variable {secureHash sha256 : Digest} {ops : FieldOps}

theorem foldPolynomial_at {poly : List UInt64} {alpha : UInt64} {i : Nat}
    (inside : i < poly.length / 2) : (foldPolynomial ops poly alpha).getD i 0 =
      ops.add (poly.getD i 0) (ops.mul alpha (poly.getD (i + poly.length / 2) 0)) := by
  have low : i < (foldPolynomial ops poly alpha).length := by
    rw [foldPolynomial_length]
    exact inside
  rw [List.getD_eq_getElem _ _ low]
  simp [foldPolynomial]

/-- The first layer of several, with its root and its challenge. -/
theorem foldsTo_cons {final poly : List UInt64} {polys : List (List UInt64)} {roots : List Bytes}
    {alphas : List UInt64} (folds : FoldsTo sha256 ops final (poly :: polys) roots alphas) :
    ∃ root laterRoots alpha laterAlphas, roots = root :: laterRoots ∧
      alphas = alpha :: laterAlphas ∧ merkleRoot sha256 poly = .ok root ∧
      polys.headD final = foldPolynomial ops poly alpha ∧
      FoldsTo sha256 ops final polys laterRoots laterAlphas := by
  cases roots with
  | nil => cases alphas <;> exact folds.elim
  | cons root roots =>
    cases alphas with
    | nil => exact folds.elim
    | cons alpha alphas => exact ⟨root, roots, alpha, alphas, rfl, rfl, folds⟩

theorem first_nonempty {final poly : List UInt64} {polys : List (List UInt64)} {roots : List Bytes}
    {alphas : List UInt64} (folds : FoldsTo sha256 ops final (poly :: polys) roots alphas) :
    0 < poly.length := by
  obtain ⟨root, _, _, _, _, _, committed, _⟩ := foldsTo_cons folds
  cases poly with
  | nil => cases committed
  | cons x poly => exact Nat.succ_pos poly.length

structure Answered (sha256 : Digest) (ops : FieldOps) (index : Nat) (polys : List (List UInt64))
    (alphas : List UInt64) (layers : List LayerData) : Prop where
  responds : respondLayers sha256 index polys = .ok layers
  heads : layers.head?.map LayerData.value = polys.head?.map fun poly => poly.getD index 0
  checked : ∃ accepted, verifyLayers sha256 ops index layers polys alphas = .ok accepted ∧
    (accepted = true ↔ FoldsAlong ops index polys alphas)

theorem answered_cons {poly : List UInt64} {polys : List (List UInt64)} {alpha : UInt64}
    {alphas : List UInt64} {index k : Nat} {layers : List LayerData}
    (power : poly.length = 2 ^ k) (inside : index < poly.length)
    (folds : ∀ next ∈ polys.head?, next = foldPolynomial ops poly alpha)
    (smaller : polys ≠ [] → index / 2 < poly.length / 2)
    (rest : Answered sha256 ops (index / 2) polys alphas layers) :
    ∃ layers, Answered sha256 ops index (poly :: polys) (alpha :: alphas) layers := by
  let tree := treeOf sha256 poly k
  have built : newTree sha256 poly = .ok tree := newTree_levels power
  have path : getAuthenticationPath tree index = .ok (elementPath sha256 poly k index) :=
    element_path power inside
  have value : itemAt index poly = .ok poly[index] := by
    rw [itemAt, List.getElem?_eq_getElem inside]
  have opens : verifyPath sha256 tree index poly[index] (elementPath sha256 poly k index) = true :=
    element_verifies power inside
  let here : LayerData := ⟨poly[index], elementPath sha256 poly k index, index ^^^ 1,
    poly.getD (index ^^^ 1) poly[index]⟩
  refine ⟨here :: layers, ?_, ?_, ?_⟩
  · simp only [respondLayers, built, value, path, rest.responds, bind, Except.bind]
    rfl
  · simp [here, List.getElem?_eq_getElem inside]
  · obtain ⟨accepted, run, meaning⟩ := rest.checked
    have heads := rest.heads
    cases polys with
    | nil =>
      have none : layers = [] := by simpa using heads
      subst none
      refine ⟨true, ?_, by simp [FoldsAlong]⟩
      simp only [verifyLayers, firstItem, built, bind, Except.bind, here, opens, if_true]
    | cons next polys =>
      obtain ⟨data, layers, rfl⟩ : ∃ data more, layers = data :: more := by
        cases layers with
        | nil => simp at heads
        | cons data more => exact ⟨data, more, rfl⟩
      have low := smaller (List.cons_ne_nil next polys)
      have beside : index ^^^ 1 < poly.length := by
        have place : index = 2 * (index / 2) + index % 2 := by omega
        rw [place]
        apply HashPaths.sibling_inside
        omega
      have sibling : poly.getD (index ^^^ 1) poly[index] = poly.getD (index ^^^ 1) 0 := by
        rw [List.getD_eq_getElem _ _ beside, List.getD_eq_getElem _ _ beside]
      have item : poly[index] = poly.getD index 0 := (List.getD_eq_getElem _ _ inside).symm
      have head : data.value = ops.add (poly.getD (index / 2) 0)
          (ops.mul alpha (poly.getD (index / 2 + poly.length / 2) 0)) := by
        rw [← foldPolynomial_at low, ← folds next rfl]
        simpa using heads
      have folding : FoldsAlong ops index (poly :: next :: polys) (alpha :: alphas) ↔
          ops.add poly[index] (ops.mul alpha (poly.getD (index ^^^ 1) poly[index])) = data.value ∧
            FoldsAlong ops (index / 2) (next :: polys) alphas := by
        rw [FoldsAlong, sibling, item, head]
      have step : verifyLayers sha256 ops index (here :: data :: layers) (poly :: next :: polys)
          (alpha :: alphas) =
          if ops.add poly[index] (ops.mul alpha (poly.getD (index ^^^ 1) poly[index])) ≠ data.value
          then .ok false
          else verifyLayers sha256 ops (index / 2) (data :: layers) (next :: polys) alphas := by
        rw [verifyLayers]
        simp only [firstItem, built, bind, Except.bind, here, opens, if_true, List.tail_cons]
      rw [step, folding]
      by_cases same : ops.add poly[index] (ops.mul alpha (poly.getD (index ^^^ 1) poly[index])) =
          data.value
      · rw [if_neg (not_not.mpr same)]
        exact ⟨accepted, run, by rw [meaning, and_iff_right same]⟩
      · rw [if_pos same]
        exact ⟨false, rfl, iff_of_false Bool.false_ne_true fun both => same both.1⟩

theorem zipped {final : List UInt64} {polys : List (List UInt64)} {roots : List Bytes}
    {alphas : List UInt64} (folds : FoldsTo sha256 ops final polys roots alphas) :
    (polys.zip roots).map Prod.fst = polys := by
  induction polys generalizing roots alphas with
  | nil => rfl
  | cons poly polys ih =>
    obtain ⟨root, _, _, _, rfl, _, _, _, rest⟩ := foldsTo_cons folds
    rw [List.zip_cons_cons, List.map_cons, ih rest]

/-- By induction on the layers, each half as long as the one before. -/
theorem answered_layers {final : List UInt64} {polys : List (List UInt64)} {roots : List Bytes}
    {alphas : List UInt64} {index k : Nat} (folds : FoldsTo sha256 ops final polys roots alphas)
    (power : ∀ poly ∈ polys.head?, poly.length = 2 ^ k ∧ index < poly.length) :
    ∃ layers, Answered sha256 ops index polys alphas layers := by
  induction polys generalizing roots alphas index k with
  | nil => exact ⟨[], rfl, rfl, true, rfl, by simp [FoldsAlong]⟩
  | cons poly polys ih =>
    obtain ⟨_, _, alpha, alphas, rfl, rfl, _, headed, rest⟩ := foldsTo_cons folds
    obtain ⟨size, inside⟩ := power poly rfl
    have halved : ∀ next ∈ polys.head?, next = foldPolynomial ops poly alpha := by
      intro next first
      rw [List.headD_eq_head?_getD, Option.mem_def.mp first] at headed
      exact headed
    have smaller : ∀ next ∈ polys.head?, next.length = 2 ^ (k - 1) ∧ index / 2 < next.length := by
      intro next first
      obtain ⟨more, rfl⟩ := List.head?_eq_some_iff.mp (Option.mem_def.mp first)
      have some := first_nonempty rest
      rw [halved next rfl, foldPolynomial_length, size] at some ⊢
      cases k with
      | zero => exact absurd some (Nat.lt_irrefl 0)
      | succ k =>
        rw [pow_succ, Nat.mul_div_cancel _ Nat.two_pos]
        rw [size, pow_succ] at inside
        exact ⟨rfl, Nat.div_lt_of_lt_mul (by omega)⟩
    obtain ⟨layers, answered⟩ := ih rest smaller
    apply answered_cons size inside halved _ answered
    intro more
    obtain ⟨next, polys, rfl⟩ := List.exists_cons_of_ne_nil more
    have low := (smaller next rfl).2
    rw [halved next rfl, foldPolynomial_length] at low
    exact low

/-- An honest query is answered and accepted exactly where the pairs that the
    verifier folds agree with the prover's on every layer but the last. -/
theorem honest_query_iff {poly : List UInt64} {k index : Nat} (power : poly.length = 2 ^ k)
    (inside : index < poly.length) {proof : FRIProof}
    {alphas : List UInt64} {s t u : FiatShamirTranscript}
    (run : prove secureHash sha256 ops poly s = (.ok proof, t))
    (challenges : rebuildAlphas secureHash proof.layerCommitments s = (.ok alphas, u)) :
    ∃ response accepted, generateQueryResponse sha256 index proof = .ok response ∧
      verifyQuery sha256 ops response proof alphas = .ok accepted ∧
      (accepted = true ↔ FoldsAlong ops index proof.layerPolynomials alphas) := by
  obtain ⟨made, v, folded, finish⟩ := bind_inv run
  obtain ⟨_, w, _, last⟩ := bind_inv finish
  cases last
  obtain ⟨rebuilt, again, known⟩ := foldLayers_replays Nat.le.refl s proof v folded
  cases challenges.symm.trans again
  have first : ∀ layer ∈ proof.layerPolynomials.head?, layer.length = 2 ^ k ∧ index < layer.length := by
    intro layer head
    have starts := known.starts
    rw [List.headD_eq_head?_getD, Option.mem_def.mp head, Option.getD_some] at starts
    rw [starts]
    exact ⟨power, inside⟩
  obtain ⟨layers, answered⟩ := answered_layers known.folds first
  obtain ⟨accepted, checked, meaning⟩ := answered.checked
  refine ⟨⟨index, layers⟩, accepted, ?_, checked, meaning⟩
  rw [generateQueryResponse, zipped known.folds, answered.responds]
  rfl

end Honest

def sampleEvaluations : List UInt64 := (List.range 64).map UInt64.ofNat

def sampleProof : FRIProof :=
  ((prove counting counting goldilocks sampleEvaluations (start counting none)).1.toOption).getD
    ⟨[], [], []⟩

def sampleAlphas : List UInt64 :=
  ((rebuildAlphas counting sampleProof.layerCommitments (start counting none)).1.toOption).getD []

theorem sample_proved :
    ∃ t, prove counting counting goldilocks sampleEvaluations (start counting none) =
      (.ok sampleProof, t) := by
  have made : (prove counting counting goldilocks sampleEvaluations (start counting none)).1 =
      .ok sampleProof := by decide +kernel
  exact state_after made

theorem sample_challenged :
    ∃ u, rebuildAlphas counting sampleProof.layerCommitments (start counting none) =
      (.ok sampleAlphas, u) := by
  have made : (rebuildAlphas counting sampleProof.layerCommitments (start counting none)).1 =
      .ok sampleAlphas := by decide +kernel
  exact state_after made

/-- With two layers the first index is refused: the verifier folds the entries 0
    and 1, the prover has folded 0 and 32. -/
theorem honest_query_refused : sampleEvaluations.length = 2 ^ 6 ∧ ∃ t u response,
    prove counting counting goldilocks sampleEvaluations (start counting none) =
      (.ok sampleProof, t) ∧
    rebuildAlphas counting sampleProof.layerCommitments (start counting none) =
      (.ok sampleAlphas, u) ∧
    generateQueryResponse counting 0 sampleProof = .ok response ∧
    verifyQuery counting goldilocks response sampleProof sampleAlphas = .ok false := by
  obtain ⟨t, made⟩ := sample_proved
  obtain ⟨u, drawn⟩ := sample_challenged
  refine ⟨rfl, t, u, ((generateQueryResponse counting 0 sampleProof).toOption).getD ⟨0, []⟩, made,
    drawn, ?_, ?_⟩
  · decide +kernel
  · decide +kernel

theorem honest_query_sample : ∃ response accepted,
    generateQueryResponse counting 0 sampleProof = .ok response ∧
    verifyQuery counting goldilocks response sampleProof sampleAlphas = .ok accepted ∧
    (accepted = true ↔ FoldsAlong goldilocks 0 sampleProof.layerPolynomials sampleAlphas) := by
  obtain ⟨t, made⟩ := sample_proved
  obtain ⟨u, drawn⟩ := sample_challenged
  have power : sampleEvaluations.length = 2 ^ 6 := rfl
  exact honest_query_iff power (by decide) made drawn

end FriQueries
