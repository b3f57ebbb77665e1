import StatelessEthereum.PythonError
import StatelessEthereum.StateEffect
import Mathlib.Data.Set.Function

/- The Fiat-Shamir transcript that the STARK prover writes and the verifier
   rebuilds (zkSTARK/transcript.py). -/
namespace FiatShamir
open BigEndian PythonError StateEffect

def FIELD_PRIME_INT : Nat := 0xFFFFFFFF00000001

def ascii (text : String) : Bytes := text.toList.map fun c => UInt8.ofNat c.toNat

/-- A hash function with 32-byte digests: BLAKE3, or HMAC-SHA256 where that is
    missing, and SHA-256. -/
structure Digest where
  hash : Bytes → Bytes
  size : ∀ data, (hash data).length = 32

/-- A digest for samples: the number in the first four bytes, and one more. -/
def counting : Digest where
  hash data := toBytes 4 (ofBytes (data.take 4) + 1) ++ List.replicate 28 0
  size := by
    intro data
    rw [List.length_append, toBytes_length, List.length_replicate]

/-- A digest for samples that all bytes count in: their number and how many they
    are. -/
def residue : Digest where
  hash data := toBytes 32 ((ofBytes data * 256 + data.length) % (2 ^ 255 - 19))
  size := by
    intro data
    rw [toBytes_length]

def Collisionless (digest : Digest) (strings : List Bytes) : Prop :=
  Set.InjOn digest.hash {x | x ∈ strings}

theorem collisionless_iff (digest : Digest) (strings : List Bytes) : Collisionless digest strings ↔
    ∀ x ∈ strings, ∀ y ∈ strings, digest.hash x = digest.hash y → x = y := by
  constructor
  · intro collisionless x known y listed same
    exact collisionless known listed same
  · intro each x known y listed same
    exact each x known y listed same

theorem collisionless_sublist {digest : Digest} {strings others : List Bytes}
    (collisionless : Collisionless digest strings) (fewer : others ⊆ strings) :
    Collisionless digest others :=
  Set.InjOn.mono (fun _ member => fewer member) collisionless

instance (digest : Digest) (strings : List Bytes) : Decidable (Collisionless digest strings) :=
  decidable_of_iff _ (collisionless_iff digest strings).symm

/-- `struct.pack("<I", n)` -/
def packI (n : Nat) : Except PyError Bytes :=
  if n < 2 ^ 32 then .ok (toBytes 4 n).reverse else .error .structError

structure FiatShamirTranscript where
  domainSeparator : Bytes
  state : Bytes
  challengeCount : Nat
  deriving DecidableEq

abbrev Talk := Effect FiatShamirTranscript PyError

section Hash
variable (secureHash : Digest)

def hashToField (data : Bytes) : UInt64 :=
  UInt64.ofNat (ofBytes ((secureHash.hash data).take 8) % FIELD_PRIME_INT)

/-- The constructor; without a seed it takes its own. -/
def start (seed : Option Bytes) : FiatShamirTranscript :=
  let seed := seed.getD (ascii "PYTHONSTARK_IOP_V01")
  let domainSeparator := (secureHash.hash (seed ++ ascii "_domain")).take 16
  { domainSeparator, state := secureHash.hash (seed ++ domainSeparator), challengeCount := 0 }

def absorb (data : Bytes) (t : FiatShamirTranscript) : FiatShamirTranscript :=
  { t with state := secureHash.hash (t.state ++ data) }

def append (label data : Bytes) : Talk Unit := do
  let size ← lift (packI data.length)
  modify fun t => absorb secureHash (t.domainSeparator ++ label ++ size ++ data) t

def nextLabel (label : Bytes) : Talk Bytes := do
  let count ← reads fun t => packI t.challengeCount
  modify fun t => { t with challengeCount := t.challengeCount + 1 }
  pure (label ++ count)

def challenge (label : Bytes) : Talk UInt64 := do
  let challengeLabel ← nextLabel label
  let challengeData ← reads fun t => .ok (t.state ++ t.domainSeparator ++ challengeLabel)
  modify (absorb secureHash challengeData)
  pure (hashToField secureHash challengeData)

/-- The loop of `challenge_bytes`; every turn adds a digest, so `turns` is at
    most the number of bytes asked for. -/
def gather (nBytes : Nat) (source : Bytes) : Nat → Nat → Bytes → Except PyError Bytes
  | 0, _, result => .ok result
  | turns + 1, counter, result =>
    if result.length < nBytes then do
      let packed ← packI counter
      gather nBytes source turns (counter + 1) (result ++ secureHash.hash (source ++ packed))
    else .ok result

def challengeBytes (label : Bytes) (nBytes : Nat) : Talk Bytes := do
  let challengeLabel ← nextLabel label
  let result ← reads fun t =>
    gather secureHash nBytes (t.state ++ t.domainSeparator ++ challengeLabel) nBytes 0 []
  modify (absorb secureHash (result.take nBytes))
  pure (result.take nBytes)

/-- `indices.add(idx)`, on the sorted list of the set. -/
def addIndex (idx : Nat) : List Nat → List Nat
  | [] => [idx]
  | i :: rest =>
    if idx < i then idx :: i :: rest
    else if idx = i then i :: rest
    else i :: addIndex idx rest

/-- The loop of `challenge_indices`, with a bound on its turns. -/
def sampleIndices (count domainSize : Nat) : Nat → Nat → List Nat → Talk (List Nat)
  | 0, _, indices => if indices.length < count then raise .diverges else pure indices
  | turns + 1, attempt, indices =>
    if indices.length < count then do
      let randBytes ← challengeBytes secureHash
        (ascii "query_index_" ++ ascii (toString attempt)) 4
      let idx := ofBytes randBytes % domainSize
      sampleIndices count domainSize turns (attempt + 1) (addIndex idx indices)
    else pure indices

/-- `limit` bounds the draws; a run that needs more of them would not be over
    yet. After the check both numbers are positive, or no index is drawn. -/
def challengeIndices (limit : Nat) (count domainSize : Int) : Talk (List Nat) :=
  if domainSize < count then
    raise (.valueError s!"Cannot sample {count} unique indices from domain of size {domainSize}")
  else sampleIndices secureHash count.toNat domainSize.toNat limit 0 []

end Hash

theorem addIndex_mem (idx i : Nat) (indices : List Nat) :
    i ∈ addIndex idx indices ↔ i = idx ∨ i ∈ indices := by
  induction indices with
  | nil => simp [addIndex]
  | cons j rest ih =>
    unfold addIndex
    split
    · simp
    · split
      · rename_i same
        subst same
        simp
      · simp only [List.mem_cons, ih]
        tauto

theorem addIndex_sorted (idx : Nat) {indices : List Nat} (sorted : indices.Pairwise (· < ·)) :
    (addIndex idx indices).Pairwise (· < ·) := by
  induction indices with
  | nil => simp [addIndex]
  | cons i rest ih =>
    obtain ⟨least, later⟩ := List.pairwise_cons.mp sorted
    unfold addIndex
    split
    · rename_i below
      constructor
      · intro j member
        rcases List.mem_cons.mp member with rfl | member
        · exact below
        · exact Nat.lt_trans below (least j member)
      · exact sorted
    · split
      · exact sorted
      · rename_i low other
        constructor
        · intro j member
          rcases (addIndex_mem idx j rest).mp member with rfl | member
          · omega
          · exact least j member
        · exact ih later

theorem addIndex_length (idx : Nat) (indices : List Nat) :
    (addIndex idx indices).length ≤ indices.length + 1 := by
  induction indices with
  | nil => simp [addIndex]
  | cons i rest ih =>
    unfold addIndex
    split
    · simp
    · split
      · simp
      · simp only [List.length_cons]
        omega

/-- The query indices of a finished run: as many as asked for, in order, none
    twice and none outside the domain. -/
structure Sampled (count domainSize : Nat) (indices : List Nat) : Prop where
  enough : indices.length = count
  sorted : indices.Pairwise (· < ·)
  inside : ∀ i ∈ indices, i < domainSize

theorem sampleIndices_sampled {secureHash : Digest} {count domainSize turns attempt : Nat}
    {indices result : List Nat} {s t : FiatShamirTranscript} (room : count ≤ domainSize)
    (few : indices.length ≤ count) (sorted : indices.Pairwise (· < ·))
    (inside : ∀ i ∈ indices, i < domainSize)
    (run : sampleIndices secureHash count domainSize turns attempt indices s = (.ok result, t)) :
    Sampled count domainSize result := by
  induction turns generalizing attempt indices s with
  | zero =>
    unfold sampleIndices at run
    split at run
    · cases run
    · cases run
      exact ⟨by omega, sorted, inside⟩
  | succ turns ih =>
    unfold sampleIndices at run
    split at run
    · rename_i short
      obtain ⟨randBytes, u, _, rest⟩ := bind_inv run
      refine ih ?_ (addIndex_sorted _ sorted) ?_ rest
      · have grown := addIndex_length (ofBytes randBytes % domainSize) indices
        omega
      · intro i member
        rcases (addIndex_mem _ i indices).mp member with rfl | member
        · exact Nat.mod_lt _ (by omega)
        · exact inside i member
    · cases run
      exact ⟨by omega, sorted, inside⟩

theorem challengeIndices_sampled {secureHash : Digest} {limit : Nat} {count domainSize : Int}
    {indices : List Nat} {s t : FiatShamirTranscript}
    (run : challengeIndices secureHash limit count domainSize s = (.ok indices, t)) :
    Sampled count.toNat domainSize.toNat indices := by
  unfold challengeIndices at run
  split at run
  · cases run
  · rename_i room
    exact sampleIndices_sampled (by omega) (by simp) .nil (by simp) run

end FiatShamir
