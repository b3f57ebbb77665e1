import StatelessEthereum.FiatShamir

/- The transcript with proof of work (`SecureFiatShamirTranscript`,
   zkSTARK/transcript.py). What the code takes for the number of leading zero bits
   is the length of a length, so the first attempt already passes. -/
namespace Grinding
open BigEndian PythonError FiatShamir StateEffect

/-- `struct.pack("<Q", n)` -/
def packQ (n : Int) : Except PyError Bytes :=
  if 0 ≤ n ∧ n < 2 ^ 64 then .ok (toBytes 8 n.toNat).reverse else .error .structError

/-- `leading_zeros` of the code; `bit_length` leaves the sign out. -/
def leadingZeros (challenge : UInt64) : Nat :=
  bitLength ((bitLength challenge.toNat : Int) - 1).natAbs

def grindingBits (securityBits : Int) : Int := min 20 (securityBits / 6)

def verifyGrinding (challenge : UInt64) (expectedBits : Int) : Bool :=
  decide (expectedBits ≤ 64 - (leadingZeros challenge : Int))

section Search
variable (secureHash : Digest)

def attempt (label : Bytes) (nonce : Int) : Talk UInt64 := do
  let packed ← StateEffect.lift (packQ nonce)
  challenge secureHash (label ++ packed)

/-- The search for a nonce; `packQ` ends it at `2 ^ 64`, before the turns do. -/
def findNonce (label : Bytes) (bits : Int) : Nat → Int → Talk (UInt64 × Int)
  | 0, _ => raise .diverges
  | turns + 1, nonce => do
    let found ← attempt secureHash label nonce
    if bits ≤ 64 - (leadingZeros found : Int) then pure (found, nonce)
    else findNonce label bits turns (nonce + 1)

def challengeWithGrinding (securityBits : Int) (label : Bytes) :
    Option Int → Talk (UInt64 × Int)
  | none => findNonce secureHash label (grindingBits securityBits) (2 ^ 64 + 1) 0
  | some nonce => do
    let found ← attempt secureHash label nonce
    pure (found, nonce)

def firstChallenge (t : FiatShamirTranscript) (label : Bytes) : UInt64 :=
  hashToField secureHash (t.state ++ t.domainSeparator ++
    (label ++ List.replicate 8 0 ++ (toBytes 4 t.challengeCount).reverse))

/-- What a search is meant to find: a challenge below the bound, which passes the
    check and is found again by its nonce. -/
def Finds (t : FiatShamirTranscript) (label : Bytes) (securityBits : Int) : Prop :=
  ∀ found nonce u, challengeWithGrinding secureHash securityBits label none t =
      (.ok (found, nonce), u) →
    found.toNat < 2 ^ (64 - grindingBits securityBits).toNat ∧
      verifyGrinding found (grindingBits securityBits) = true ∧
      ∃ v, challengeWithGrinding secureHash securityBits label (some nonce) t =
        (.ok (found, nonce), v)

end Search

theorem bitLength_le_iff {n bits : Nat} : bitLength n ≤ bits ↔ n < 2 ^ bits := by
  constructor
  · intro short
    exact Nat.lt_of_lt_of_le (bitLength_bound n) (Nat.pow_le_pow_right Nat.two_pos short)
  · exact bitLength_le

theorem bitLength_word (c : UInt64) : bitLength c.toNat ≤ 64 := bitLength_le c.toNat_lt

theorem leadingZeros_le (c : UInt64) : leadingZeros c ≤ 6 := by
  have word := bitLength_word c
  apply bitLength_le
  omega

theorem leadingZeros_zero : leadingZeros 0 = 1 := by decide

theorem leadingZeros_pos {c : UInt64} (some : 0 < bitLength c.toNat) :
    leadingZeros c = bitLength (bitLength c.toNat - 1) := by
  have gap : ((bitLength c.toNat : Int) - 1).natAbs = bitLength c.toNat - 1 := by omega
  rw [leadingZeros, gap]

/-- The code counts fewer zeros than there are bits. -/
theorem length_of_length {n : Nat} (some : 0 < n) : bitLength (n - 1) < n := by
  have low : n - 1 < 2 ^ (n - 1) := Nat.lt_two_pow_self
  have short := bitLength_le low
  omega

/-- Every challenge passes any of the bounds that the constructor sets. -/
theorem grinding_passes (c : UInt64) (securityBits : Int) :
    grindingBits securityBits ≤ 64 - (leadingZeros c : Int) := by
  have few := leadingZeros_le c
  have low : grindingBits securityBits ≤ 20 := min_le_left _ _
  omega

section Search
variable {secureHash : Digest}

theorem challenge_run {t : FiatShamirTranscript} {label : Bytes} (low : t.challengeCount < 2 ^ 32) :
    ∃ u, challenge secureHash label t = (.ok (hashToField secureHash (t.state ++ t.domainSeparator ++
      (label ++ (toBytes 4 t.challengeCount).reverse))), u) := by
  have packed : packI t.challengeCount = .ok (toBytes 4 t.challengeCount).reverse := if_pos low
  apply state_after
  simp only [challenge, nextLabel, bind_run, reads_run, packed, modify_run, pure_run]

theorem challenge_raises {t : FiatShamirTranscript} {label : Bytes}
    (high : 2 ^ 32 ≤ t.challengeCount) :
    ∃ u, challenge secureHash label t = (.error .structError, u) := by
  have packed : packI t.challengeCount = .error .structError := if_neg (Nat.not_lt.mpr high)
  apply state_after
  simp only [challenge, nextLabel, bind_run, reads_run, packed]

theorem attempt_first (secureHash : Digest) (label : Bytes) {t : FiatShamirTranscript}
    (low : t.challengeCount < 2 ^ 32) :
    ∃ u, attempt secureHash label 0 t = (.ok (firstChallenge secureHash t label), u) :=
  challenge_run low

theorem found_first (secureHash : Digest) (label : Bytes) (securityBits : Int)
    {t : FiatShamirTranscript} (low : t.challengeCount < 2 ^ 32) :
    ∃ u, challengeWithGrinding secureHash securityBits label none t =
      (.ok (firstChallenge secureHash t label, 0), u) := by
  obtain ⟨u, run⟩ := attempt_first secureHash label low
  refine ⟨u, ?_⟩
  rw [challengeWithGrinding, findNonce, bind_ok run, if_pos (grinding_passes _ securityBits)]
  rfl

theorem search_raises (secureHash : Digest) (label : Bytes) (securityBits : Int)
    {t : FiatShamirTranscript} (high : 2 ^ 32 ≤ t.challengeCount) :
    ∃ u, challengeWithGrinding secureHash securityBits label none t = (.error .structError, u) := by
  obtain ⟨u, run⟩ : ∃ u, attempt secureHash label 0 t = (.error .structError, u) :=
    challenge_raises high
  refine ⟨u, ?_⟩
  rw [challengeWithGrinding, findNonce, bind_error run]

theorem finds_iff (t : FiatShamirTranscript) (label : Bytes) (securityBits : Int) :
    Finds secureHash t label securityBits ↔ 2 ^ 32 ≤ t.challengeCount ∨
      (firstChallenge secureHash t label).toNat < 2 ^ (64 - grindingBits securityBits).toNat := by
  constructor
  · intro finds
    by_cases high : 2 ^ 32 ≤ t.challengeCount
    · exact Or.inl high
    · obtain ⟨u, run⟩ := found_first secureHash label securityBits (Nat.lt_of_not_le high)
      exact Or.inr (finds _ _ u run).1
  · intro known found nonce u run
    by_cases high : 2 ^ 32 ≤ t.challengeCount
    · obtain ⟨v, raised⟩ := search_raises secureHash label securityBits high
      cases run.symm.trans raised
    · obtain ⟨v, first⟩ := found_first secureHash label securityBits (Nat.lt_of_not_le high)
      cases run.symm.trans first
      refine ⟨known.resolve_left high, ?_, ?_⟩
      · exact decide_eq_true (grinding_passes _ securityBits)
      · obtain ⟨w, again⟩ := attempt_first secureHash label (Nat.lt_of_not_le high)
        exact ⟨w, bind_ok again⟩

end Search

/-- The check of a challenge against a bound, where it says what it should. -/
theorem verifyGrinding_iff (c : UInt64) {b : Int} (bound : b ≤ 64) :
    (verifyGrinding c b = true ↔ c.toNat < 2 ^ (64 - b).toNat) ↔
      if c = 0 then b ≤ 63
      else b ≤ 64 - (bitLength c.toNat : Int) ∨
        64 - (bitLength (bitLength c.toNat - 1) : Int) < b := by
  rw [verifyGrinding, decide_eq_true_iff]
  by_cases zero : c = 0
  · subst zero
    have small : (0 : UInt64).toNat < 2 ^ (64 - b).toNat := Nat.two_pow_pos _
    rw [if_pos rfl, leadingZeros_zero, iff_true_right small]
    omega
  · have some : 0 < bitLength c.toNat := by
      have positive : ¬ c.toNat = 0 := fun none => zero (UInt64.toNat_inj.mp none)
      rw [bitLength, if_neg positive]
      exact Nat.succ_pos _
    have fewer := length_of_length some
    have short : c.toNat < 2 ^ (64 - b).toNat ↔ b ≤ 64 - (bitLength c.toNat : Int) := by
      rw [← bitLength_le_iff]
      omega
    rw [if_neg zero, leadingZeros_pos some, short]
    omega

/-- Both halves: the search, for every state and label, and the check, for every
    challenge and bound. -/
theorem grinding_exact_iff (secureHash : Digest) :
    (∀ t label securityBits, Finds secureHash t label securityBits ↔
      2 ^ 32 ≤ t.challengeCount ∨
        (firstChallenge secureHash t label).toNat < 2 ^ (64 - grindingBits securityBits).toNat) ∧
    ∀ (c : UInt64) (b : Int), b ≤ 64 →
      ((verifyGrinding c b = true ↔ c.toNat < 2 ^ (64 - b).toNat) ↔
        if c = 0 then b ≤ 63
        else b ≤ 64 - (bitLength c.toNat : Int) ∨
          64 - (bitLength (bitLength c.toNat - 1) : Int) < b) :=
  ⟨finds_iff, fun c _ bound => verifyGrinding_iff c bound⟩

/-- With the default strength of 128 bits twenty leading zero bits are asked for,
    and a challenge without one is found. -/
theorem grinding_passed_over : ¬ Finds counting (start counting none) (ascii "alpha") 128 ∧
    ¬ (verifyGrinding 9223372036854775808 58 = true ↔
      (9223372036854775808 : UInt64).toNat < 2 ^ ((64 : Int) - 58).toNat) := by
  constructor
  · intro finds
    have fresh : (start counting none).challengeCount < 2 ^ 32 := by decide
    obtain ⟨u, run⟩ := found_first counting (ascii "alpha") 128 fresh
    have large : ¬ (firstChallenge counting (start counting none) (ascii "alpha")).toNat <
        2 ^ (64 - grindingBits 128).toNat := by decide
    exact large (finds _ _ u run).1
  · decide

theorem grinding_exact_sample : (Finds counting (start counting none) (ascii "alpha") 128 ↔
      2 ^ 32 ≤ (start counting none).challengeCount ∨
        (firstChallenge counting (start counting none) (ascii "alpha")).toNat <
          2 ^ (64 - grindingBits 128).toNat) ∧
    ((verifyGrinding 1 64 = true ↔ (1 : UInt64).toNat < 2 ^ ((64 : Int) - 64).toNat) ↔
      if (1 : UInt64) = 0 then (64 : Int) ≤ 63
      else (64 : Int) ≤ 64 - (bitLength (1 : UInt64).toNat : Int) ∨
        64 - (bitLength (bitLength (1 : UInt64).toNat - 1) : Int) < 64) :=
  ⟨(grinding_exact_iff counting).1 _ _ _, (grinding_exact_iff counting).2 1 64 (by decide)⟩

end Grinding
