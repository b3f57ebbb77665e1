import StatelessEthereum.PolyUtils
import StatelessEthereum.FiatShamir

/- The number theoretic transform over the Goldilocks field and the low-degree
   extension of a trace column (zkSTARK/fft.py). -/
namespace LowDegree
open PythonError PolyUtils FiatShamir

structure FieldOps where
  add : UInt64 → UInt64 → UInt64
  sub : UInt64 → UInt64 → UInt64
  mul : UInt64 → UInt64 → UInt64
  inv : UInt64 → Except PyError UInt64

def goldilocks : FieldOps where
  add a b := UInt64.ofNat ((a.toNat + b.toNat) % FIELD_PRIME_INT)
  sub a b := UInt64.ofNat ((a.toNat + FIELD_PRIME_INT - b.toNat) % FIELD_PRIME_INT)
  mul a b := UInt64.ofNat (a.toNat * b.toNat % FIELD_PRIME_INT)
  inv a :=
    if a = 0 then .error (.valueError "Cannot invert zero")
    else .ok (UInt64.ofNat (powMod a.toNat (FIELD_PRIME_INT - 2) FIELD_PRIME_INT))

def GENERATOR : Nat := 7

def getOmega (n : Nat) : Except PyError Nat :=
  if n = 0 then .error .zeroDivisionError
  else .ok (powMod GENERATOR ((FIELD_PRIME_INT - 1) / n) FIELD_PRIME_INT)

/-- The powers of `omega` from `current` on. -/
def powers (omega : Nat) : Nat → Nat → List UInt64
  | 0, _ => []
  | n + 1, current => UInt64.ofNat current :: powers omega n (current * omega % FIELD_PRIME_INT)

def getTwiddles (n : Nat) : Except PyError (List UInt64) := do
  let omega ← getOmega n
  .ok (powers omega n 1)

/-- One less than the binary logarithm: the loop counts it and subtracts one.
    Below two the result is negative, and no bit is then reversed. -/
def bitLengthMinusOne (n : Nat) : Nat := n.log2 - 1

def reverseBits (bits i : Nat) : Nat :=
  (List.range bits).foldl
    (fun j b => if i &&& (1 <<< b) ≠ 0 then j ||| (1 <<< (bits - 1 - b)) else j) 0

def swapUp (bits : Nat) (result : List UInt64) (i : Nat) : List UInt64 :=
  let j := reverseBits bits i
  if i < j then (result.set i (result.getD j 0)).set j (result.getD i 0) else result

section Ops
variable (ops : FieldOps)

/-- One butterfly: the entries at `idx1` and at `idx1 + half`. -/
def butterfly (half : Nat) (w : UInt64) (result : List UInt64) (idx1 : Nat) : List UInt64 :=
  let t := ops.mul w (result.getD (idx1 + half) 0)
  let a := result.getD idx1 0
  (result.set (idx1 + half) (ops.sub a t)).set idx1 (ops.add a t)

/-- The butterflies of one length, block after block. -/
def butterflies (twiddles : List UInt64) (n : Nat) (result : List UInt64) (round : Nat) :
    List UInt64 :=
  let length := 2 ^ (round + 1)
  let half := length / 2
  let step := n / length
  (List.range ((n + length - 1) / length)).foldl (fun result block =>
    (List.range half).foldl (fun result k =>
      butterfly ops half (twiddles.getD (k * step) 0) result (block * length + k)) result) result

/-- `ntt_forward`; the lengths 2, 4, 8, … up to the size are the rounds. -/
def nttForward (values twiddles : List UInt64) : List UInt64 :=
  let n := values.length
  let result := (List.range n).foldl (swapUp (bitLengthMinusOne n)) values
  (List.range n.log2).foldl (butterflies ops twiddles n) result

def nttInverse (values twiddles : List UInt64) : Except PyError (List UInt64) := do
  let invTwiddles ← twiddles.mapM ops.inv
  let result := nttForward ops values invTwiddles
  let nInv ← ops.inv (UInt64.ofNat values.length)
  .ok (result.map fun x => ops.mul x nInv)

def padded (values : List UInt64) (size : Nat) : List UInt64 :=
  values ++ List.replicate (size - values.length) 0

def computeLde (traceColumn : List UInt64) (blowupFactor : Nat) : Except PyError (List UInt64) := do
  let n := traceColumn.length
  let traceColumn := if n &&& (n - 1) ≠ 0 then padded traceColumn n.nextPowerOfTwo else traceColumn
  let n := traceColumn.length
  let twiddles ← getTwiddles n
  let coeffs ← nttInverse ops traceColumn twiddles
  let extendedSize := n * blowupFactor
  let twiddlesExtended ← getTwiddles extendedSize
  .ok (nttForward ops (padded coeffs extendedSize) twiddlesExtended)

end Ops

/- Sizes. -/

theorem foldl_length {α : Type} {step : List UInt64 → α → List UInt64}
    (keeps : ∀ l a, (step l a).length = l.length) (turns : List α) (l : List UInt64) :
    (turns.foldl step l).length = l.length := by
  induction turns generalizing l with
  | nil => rfl
  | cons a turns ih => rw [List.foldl_cons, ih, keeps]

theorem swapUp_length (bits : Nat) (result : List UInt64) (i : Nat) :
    (swapUp bits result i).length = result.length := by
  unfold swapUp
  simp only
  split
  · simp
  · rfl

theorem butterflies_length (ops : FieldOps) (twiddles : List UInt64) (n : Nat)
    (result : List UInt64) (round : Nat) :
    (butterflies ops twiddles n result round).length = result.length := by
  unfold butterflies
  apply foldl_length
  intro l block
  apply foldl_length
  intro l k
  simp [butterfly]

theorem nttForward_length (ops : FieldOps) (values twiddles : List UInt64) :
    (nttForward ops values twiddles).length = values.length := by
  unfold nttForward
  rw [foldl_length (butterflies_length ops twiddles values.length), foldl_length (swapUp_length _)]

theorem nttInverse_length {ops : FieldOps} {values twiddles coeffs : List UInt64}
    (run : nttInverse ops values twiddles = .ok coeffs) : coeffs.length = values.length := by
  unfold nttInverse at run
  obtain ⟨invTwiddles, _, run⟩ := ok_of_bind run
  obtain ⟨nInv, _, run⟩ := ok_of_bind run
  cases run
  rw [List.length_map, nttForward_length]

/-- The extension of a column whose length is a power of two. -/
theorem computeLde_length {ops : FieldOps} {traceColumn lde : List UInt64} {blowupFactor : Nat}
    (power : traceColumn.length.isPowerOfTwo) (grows : 0 < blowupFactor)
    (run : computeLde ops traceColumn blowupFactor = .ok lde) :
    lde.length = traceColumn.length * blowupFactor := by
  have exact := (Nat.ne_zero_and_sub_one_eq_zero_iff_isPowerOfTwo.mpr power).2
  unfold computeLde at run
  simp only [exact, ne_eq, not_true_eq_false, if_false] at run
  obtain ⟨twiddles, _, run⟩ := ok_of_bind run
  obtain ⟨coeffs, inverse, run⟩ := ok_of_bind run
  obtain ⟨twiddlesExtended, _, run⟩ := ok_of_bind run
  cases run
  have wide : traceColumn.length ≤ traceColumn.length * blowupFactor :=
    Nat.le_mul_of_pos_right _ grows
  rw [nttForward_length, padded, List.length_append, List.length_replicate,
    nttInverse_length inverse]
  omega

end LowDegree
