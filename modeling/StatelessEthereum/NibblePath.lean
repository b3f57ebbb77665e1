import StatelessEthereum.PythonError
import StatelessEthereum.BigEndian
import StatelessEthereum.CompactTrie
import Mathlib.Data.Nat.Bitwise

/- Paths of the Merkle trie (merkle/nibble_path.py): digits in base `width`
   behind an offset that moves forward as the path is consumed. Consuming
   returns the moved path here; the source moves it in place. -/
namespace NibblePaths
open PythonError BigEndian CompactTrie

structure NibblePath where
  width : Nat
  digits : List Nat
  offset : Nat
  valid : ∀ d ∈ digits, d < width

def ODD_FLAG : Nat := 0x10
def LEAF_FLAG : Nat := 0x20
def EXTENDED_MARKER : UInt8 := 0xFF

def bitsPerDigit (width : Nat) : Nat := width.log2

def checkWidth (width : Nat) : Except PyError Unit :=
  if width < 2 ∨ width > 256 then
    .error (.valueError "width must be an integer between 2 and 256")
  else if width &&& (width - 1) ≠ 0 then .error (.valueError "width must be a power of two")
  else if 8 % bitsPerDigit width ≠ 0 then
    .error (.valueError "width must have digit size dividing 8 bits (e.g., 2, 4, 16, 256)")
  else .ok ()

def ofCheckedDigits (digits : List Nat) (offset width : Nat) : Except PyError NibblePath :=
  if valid : ∀ d ∈ digits, d < width then .ok ⟨width, digits, offset, valid⟩
  else
    let d := (digits.find? fun d => width ≤ d).getD 0
    .error (.valueError s!"digit {d} out of range for width={width}")

def bytesToDigits (bits : Nat) (data : Bytes) : List Nat :=
  data.flatMap fun b =>
    (List.range (8 / bits)).map fun i => (b.toNat >>> (8 - (i + 1) * bits)) &&& ((1 <<< bits) - 1)

def ofDigits (digits : List Nat) (offset width : Nat) : Except PyError NibblePath := do
  checkWidth width
  ofCheckedDigits digits offset width

def ofBytes (data : Bytes) (offset width : Nat) : Except PyError NibblePath := do
  checkWidth width
  ofCheckedDigits (bytesToDigits (bitsPerDigit width) data) offset width

namespace NibblePath

def len (p : NibblePath) : Nat := p.digits.length - p.offset

def digit? (p : NibblePath) (idx : Nat) : Option Nat := p.digits[idx + p.offset]?

/-- `at` in the source. -/
def atIndex (p : NibblePath) (idx : Nat) : Except PyError Nat :=
  match p.digit? idx with
  | some d => .ok d
  | none => .error .indexError

def str (p : NibblePath) : String := s!"<Width {p.width} | Digits {p.digits}>"

/-- `__eq__`: the widths are not compared. -/
def eq (p q : NibblePath) : Bool :=
  p.len == q.len && (List.range p.len).all fun i => p.digit? i == q.digit? i

def startsWith (p q : NibblePath) : Bool :=
  decide (q.len ≤ p.len) && (List.range q.len).all fun i => p.digit? i == q.digit? i

def consume (p : NibblePath) (amount : Nat) : NibblePath := { p with offset := p.offset + amount }

def remaining (p : NibblePath) : List Nat := p.digits.drop p.offset

def createNew (p : NibblePath) (length : Nat) : NibblePath :=
  ⟨p.width, p.remaining.take length, 0, fun d member =>
    p.valid d (List.mem_of_mem_drop (List.mem_of_mem_take member))⟩

def commonPrefix (p q : NibblePath) : NibblePath :=
  p.createNew ((List.range (min p.len q.len)).takeWhile fun i => p.digit? i == q.digit? i).length

end NibblePath

/-- The loop of the hex-prefix encoder: two digits a byte. -/
def pairBytes : List Nat → Bytes
  | a :: b :: rest => UInt8.ofNat (a * 16 + b) :: pairBytes rest
  | _ => []

def hexPrefix (ds : List Nat) (isLeaf : Bool) : Bytes :=
  let isOdd := ds.length % 2 == 1
  let first := (if isOdd then ODD_FLAG + ds.headD 0 else 0x00) + (if isLeaf then LEAF_FLAG else 0x00)
  UInt8.ofNat first :: pairBytes (ds.drop (ds.length % 2))

def NibblePath.encode (p : NibblePath) (isLeaf : Bool) : Except PyError Bytes :=
  if p.width = 16 then .ok (hexPrefix p.remaining isLeaf)
  else if 256 ≤ p.width then .error (.valueError "bytes must be in range(0, 256)")
  else if 256 ^ 4 ≤ p.len then .error (.overflowError "")
  else
    let flags : UInt8 := if isLeaf then 0x01 else 0x00
    .ok ([EXTENDED_MARKER, flags, UInt8.ofNat p.width] ++ toBytes 4 p.len ++
      p.remaining.map UInt8.ofNat)

def decodeWithType (data : Bytes) : Except PyError (NibblePath × Bool) :=
  match data with
  | [] => .error (.valueError "Cannot decode empty path")
  | first :: _ =>
    if first = EXTENDED_MARKER then
      if data.length < 7 then .error (.valueError "Invalid extended path encoding")
      else
        let flags := data.getD 1 0
        let width := (data.getD 2 0).toNat
        let length := BigEndian.ofBytes ((data.drop 3).take 4)
        let digits := ((data.drop 7).take length).map UInt8.toNat
        if digits.length ≠ length then .error (.valueError "Invalid extended path length")
        else do
          let path ← ofDigits digits 0 width
          .ok (path, flags &&& 0x01 == 0x01)
    else do
      let isOddLen := first.toNat &&& ODD_FLAG == ODD_FLAG
      let isLeaf := first.toNat &&& LEAF_FLAG == LEAF_FLAG
      let path ← ofBytes data (if isOddLen then 1 else 2) 16
      .ok (path, isLeaf)

/- Every operation on paths is an operation on the remaining digits. -/

namespace NibblePath

@[simp] theorem remaining_length (p : NibblePath) : p.remaining.length = p.len := by
  simp [remaining, len]

theorem digit?_eq (p : NibblePath) (i : Nat) : p.digit? i = p.remaining[i]? := by
  simp [digit?, remaining, Nat.add_comm]

theorem remaining_valid (p : NibblePath) : ∀ d ∈ p.remaining, d < p.width := fun d member =>
  p.valid d (List.mem_of_mem_drop member)

theorem len_eq_zero_iff (p : NibblePath) : p.len = 0 ↔ p.remaining = [] := by
  rw [← remaining_length, List.length_eq_zero_iff]

@[simp] theorem remaining_consume (p : NibblePath) (n : Nat) :
    (p.consume n).remaining = p.remaining.drop n := by
  simp [remaining, consume]

@[simp] theorem width_consume (p : NibblePath) (n : Nat) : (p.consume n).width = p.width := rfl

@[simp] theorem len_consume (p : NibblePath) (n : Nat) : (p.consume n).len = p.len - n := by
  rw [← remaining_length, remaining_consume, List.length_drop, remaining_length]

theorem atIndex_zero {p : NibblePath} {d : Nat} {rest : List Nat} (shape : p.remaining = d :: rest) :
    p.atIndex 0 = .ok d := by
  simp [atIndex, digit?_eq, shape]

theorem all_digits_eq_iff (p q : NibblePath) (n : Nat) :
    ((List.range n).all fun i => p.digit? i == q.digit? i) = true ↔
      ∀ i < n, p.remaining[i]? = q.remaining[i]? := by
  simp [digit?_eq]

theorem eq_iff (p q : NibblePath) : p.eq q = true ↔ p.remaining = q.remaining := by
  simp only [eq, Bool.and_eq_true, beq_iff_eq, all_digits_eq_iff, ← remaining_length]
  constructor
  · rintro ⟨lengths, digits⟩
    apply List.ext_getElem?
    intro i
    by_cases inside : i < p.remaining.length
    · exact digits i inside
    · rw [List.getElem?_eq_none (by omega), List.getElem?_eq_none (by omega)]
  · intro same
    rw [same]
    exact ⟨rfl, fun _ _ => rfl⟩

theorem startsWith_iff (p q : NibblePath) :
    p.startsWith q = true ↔ q.remaining <+: p.remaining := by
  simp only [startsWith, Bool.and_eq_true, decide_eq_true_eq, all_digits_eq_iff,
    ← remaining_length]
  rw [List.prefix_iff_eq_take]
  constructor
  · rintro ⟨shorter, digits⟩
    apply List.ext_getElem?
    intro i
    rw [List.getElem?_take]
    split
    · rename_i inside
      exact (digits i inside).symm
    · rw [List.getElem?_eq_none (by omega)]
  · intro taken
    have shorter : q.remaining.length ≤ p.remaining.length := by
      rw [taken, List.length_take]
      exact Nat.min_le_right _ _
    refine ⟨shorter, ?_⟩
    intro i inside
    rw [taken, List.getElem?_take_of_lt inside]

theorem takeWhile_common (a b : List Nat) :
    ((List.range (min a.length b.length)).takeWhile fun i => a[i]? == b[i]?).length =
      (common a b).length := by
  induction a generalizing b with
  | nil => simp [common]
  | cons x xs ih =>
    cases b with
    | nil => simp [common]
    | cons y ys =>
      have sizes : min (x :: xs).length (y :: ys).length = min xs.length ys.length + 1 := by
        simp only [List.length_cons]; omega
      rw [sizes, List.range_succ_eq_map, List.takeWhile_cons]
      by_cases same : x = y
      · subst same
        simp only [List.getElem?_cons_zero, beq_self_eq_true, ↓reduceIte, common, List.length_cons,
          List.takeWhile_map, List.length_map]
        rw [← ih ys]
        congr 2
      · simp [same, common]

theorem remaining_commonPrefix (p q : NibblePath) :
    (p.commonPrefix q).remaining = common p.remaining q.remaining := by
  have count := takeWhile_common p.remaining q.remaining
  simp only [remaining_length] at count
  simp only [commonPrefix, createNew, digit?_eq, count]
  simp only [remaining, List.drop_zero]
  exact (List.prefix_iff_eq_take.mp (common_prefix_left _ _)).symm

@[simp] theorem width_commonPrefix (p q : NibblePath) : (p.commonPrefix q).width = p.width := rfl

theorem encode_hex {p : NibblePath} (hexadecimal : p.width = 16) (isLeaf : Bool) :
    p.encode isLeaf = .ok (hexPrefix p.remaining isLeaf) := by
  simp [encode, hexadecimal]

end NibblePath

/- Base sixteen. -/

def nibbles (b : Bytes) : List Nat := b.flatMap fun x => [x.toNat / 16, x.toNat % 16]

theorem nibbles_cons (x : UInt8) (b : Bytes) :
    nibbles (x :: b) = x.toNat / 16 :: x.toNat % 16 :: nibbles b := rfl

theorem nibbles_length (b : Bytes) : (nibbles b).length = 2 * b.length := by
  induction b with
  | nil => rfl
  | cons x b ih => rw [nibbles_cons, List.length_cons, List.length_cons, ih, List.length_cons]; omega

theorem nibbles_lt (b : Bytes) : ∀ d ∈ nibbles b, d < 16 := by
  intro d member
  simp only [nibbles, List.mem_flatMap, List.mem_cons, List.not_mem_nil, or_false] at member
  obtain ⟨x, _, value⟩ := member
  have digit := x.toNat_lt
  omega

theorem nibbles_injective {a b : Bytes} (same : nibbles a = nibbles b) : a = b := by
  induction a generalizing b with
  | nil =>
    have sizes := congrArg List.length same
    rw [nibbles_length, nibbles_length] at sizes
    have empty : b.length = 0 := by simp only [List.length_nil] at sizes; omega
    exact (List.length_eq_zero_iff.mp empty).symm
  | cons x a ih =>
    cases b with
    | nil => simp [nibbles] at same
    | cons y b =>
      simp only [nibbles_cons, List.cons.injEq] at same
      obtain ⟨high, low, rest⟩ := same
      have first : x = y := UInt8.toNat_inj.mp (by omega)
      rw [first, ih rest]

theorem bytesToDigits_hex (b : Bytes) : bytesToDigits 4 b = nibbles b := by
  simp only [bytesToDigits, nibbles]
  apply List.flatMap_congr
  intro x _
  have digit := x.toNat_lt
  have mask (n : Nat) : n &&& 15 = n % 16 := Nat.and_two_pow_sub_one_eq_mod n 4
  have high : x.toNat / 16 % 16 = x.toNat / 16 := Nat.mod_eq_of_lt (by omega)
  simp [List.range_succ, Nat.shiftRight_eq_div_pow, mask, high]

theorem checkWidth_hex : checkWidth 16 = .ok () := by decide

theorem ofBytes_hex (b : Bytes) (offset : Nat) :
    ∃ p, ofBytes b offset 16 = .ok p ∧ p.width = 16 ∧ p.remaining = (nibbles b).drop offset := by
  have digits : bytesToDigits (bitsPerDigit 16) b = nibbles b := bytesToDigits_hex b
  have valid : ∀ d ∈ bytesToDigits (bitsPerDigit 16) b, d < 16 := by
    rw [digits]; exact nibbles_lt b
  refine ⟨⟨16, _, offset, valid⟩, ?_, rfl, ?_⟩
  · rw [ofBytes, checkWidth_hex, ofCheckedDigits, dif_pos valid]
    rfl
  · simp [NibblePath.remaining, digits]

theorem pairBytes_length (ds : List Nat) : (pairBytes ds).length = ds.length / 2 := by
  induction ds using pairBytes.induct with
  | case1 a b rest ih => simp only [pairBytes, List.length_cons, ih]; omega
  | case2 ds short =>
    match ds with
    | [] => rfl
    | [_] => simp [pairBytes]
    | a :: b :: rest => exact absurd rfl (short a b rest)

theorem hexPrefix_length (ds : List Nat) (isLeaf : Bool) :
    (hexPrefix ds isLeaf).length = ds.length / 2 + 1 := by
  simp only [hexPrefix, List.length_cons, pairBytes_length, List.length_drop]
  omega

theorem nibbles_pairBytes (ds : List Nat) (digits : ∀ d ∈ ds, d < 16) (even : ds.length % 2 = 0) :
    nibbles (pairBytes ds) = ds := by
  induction ds using pairBytes.induct with
  | case1 a b rest ih =>
    have ha := digits a (by simp)
    have hb := digits b (by simp)
    have value : (UInt8.ofNat (a * 16 + b)).toNat = a * 16 + b := by
      simp only [UInt8.toNat_ofNat']; omega
    have high : (a * 16 + b) / 16 = a := by omega
    have low : (a * 16 + b) % 16 = b := by omega
    rw [pairBytes, nibbles_cons, value, high, low,
      ih (fun d member => digits d (by simp [member])) (by simp at even; omega)]
  | case2 ds short =>
    match ds with
    | [] => rfl
    | [_] => simp at even
    | a :: b :: rest => exact absurd rfl (short a b rest)

theorem flag_byte (odd leaf : Bool) (d : Nat) (digit : d < 16) :
    let first := (if odd then ODD_FLAG + d else 0) + (if leaf then LEAF_FLAG else 0)
    (UInt8.ofNat first).toNat = first ∧ UInt8.ofNat first ≠ EXTENDED_MARKER ∧
      (first &&& ODD_FLAG == ODD_FLAG) = odd ∧ (first &&& LEAF_FLAG == LEAF_FLAG) = leaf ∧
      (odd → first % 16 = d) := by
  have cases : ∀ odd leaf : Bool, ∀ d : Fin 16,
      let first := (if odd then ODD_FLAG + d.val else 0) + (if leaf then LEAF_FLAG else 0)
      (UInt8.ofNat first).toNat = first ∧ UInt8.ofNat first ≠ EXTENDED_MARKER ∧
      (first &&& ODD_FLAG == ODD_FLAG) = odd ∧ (first &&& LEAF_FLAG == LEAF_FLAG) = leaf ∧
      (odd → first % 16 = d.val) := by decide
  exact cases odd leaf ⟨d, digit⟩

theorem decode_hexPrefix (ds : List Nat) (isLeaf : Bool) (digits : ∀ d ∈ ds, d < 16) :
    ∃ p, decodeWithType (hexPrefix ds isLeaf) = .ok (p, isLeaf) ∧ p.width = 16 ∧
      p.remaining = ds := by
  have first : ds.headD 0 < 16 := by
    cases ds with
    | nil => simp
    | cons d rest => exact digits d (by simp)
  obtain ⟨value, unmarked, odd, leaf, low⟩ := flag_byte (ds.length % 2 == 1) isLeaf _ first
  simp only [hexPrefix, decodeWithType, unmarked, ↓reduceIte, value, odd, leaf]
  obtain ⟨p, built, width, rest⟩ := ofBytes_hex (hexPrefix ds isLeaf)
    (if ds.length % 2 == 1 then 1 else 2)
  simp only [hexPrefix] at built rest
  refine ⟨p, ?_, width, ?_⟩
  · rw [built]; rfl
  · rw [rest, nibbles_cons, value]
    by_cases parity : ds.length % 2 = 1
    · cases ds with
      | nil => simp at parity
      | cons d more =>
        have pairs := nibbles_pairBytes more (fun x member => digits x (by simp [member]))
          (by simp at parity; omega)
        have nibble := low (by simpa using parity)
        simp only [List.headD_cons] at nibble ⊢
        simp only [parity, beq_self_eq_true, ↓reduceIte, List.drop_succ_cons, List.drop_zero,
          pairs] at nibble ⊢
        rw [nibble]
    · have even : ds.length % 2 = 0 := by omega
      have pairs := nibbles_pairBytes ds digits even
      simp [even, pairs]

theorem hexPrefix_injective {a b : List Nat} {f g : Bool} (ha : ∀ d ∈ a, d < 16)
    (hb : ∀ d ∈ b, d < 16) (same : hexPrefix a f = hexPrefix b g) : a = b ∧ f = g := by
  obtain ⟨p, decoded, _, rest⟩ := decode_hexPrefix a f ha
  obtain ⟨q, decoded', _, rest'⟩ := decode_hexPrefix b g hb
  rw [same, decoded'] at decoded
  simp only [Except.ok.injEq, Prod.mk.injEq] at decoded
  obtain ⟨rfl, rfl⟩ := decoded
  exact ⟨rest.symm.trans rest', rfl⟩

/- Any byte string as an encoding. -/

theorem pairBytes_nibbles (b : Bytes) : pairBytes (nibbles b) = b := by
  induction b with
  | nil => rfl
  | cons x b ih =>
    have whole : x.toNat / 16 * 16 + x.toNat % 16 = x.toNat := by omega
    rw [nibbles_cons, pairBytes, ih, whole, UInt8.ofNat_toNat]

def behindFlags (first : UInt8) (rest : Bytes) : List Nat :=
  if first.toNat &&& ODD_FLAG == ODD_FLAG then first.toNat % 16 :: nibbles rest else nibbles rest

theorem decode_plain {first : UInt8} (unmarked : first ≠ EXTENDED_MARKER) (rest : Bytes) :
    ∃ p, decodeWithType (first :: rest) = .ok (p, first.toNat &&& LEAF_FLAG == LEAF_FLAG) ∧
      p.width = 16 ∧ p.remaining = behindFlags first rest := by
  obtain ⟨p, built, width, digits⟩ := ofBytes_hex (first :: rest)
    (if first.toNat &&& ODD_FLAG == ODD_FLAG then 1 else 2)
  refine ⟨p, ?_, width, ?_⟩
  · simp only [decodeWithType, unmarked, ↓reduceIte, built, bind, Except.bind]
  · rw [digits, nibbles_cons, behindFlags]
    split <;> rfl

/-- The first byte that the encoder writes from what the decoder read of one. -/
def flagsAgain (n : Nat) : Nat :=
  (if n &&& ODD_FLAG == ODD_FLAG then ODD_FLAG + n % 16 else 0) +
    (if n &&& LEAF_FLAG == LEAF_FLAG then LEAF_FLAG else 0)

theorem flagsAgain_iff {n : Nat} (byte : n < 256) :
    UInt8.ofNat (flagsAgain n) = UInt8.ofNat n ↔ n < 0x40 ∧ (n &&& ODD_FLAG = 0 → n % 16 = 0) := by
  have cases : ∀ n : Fin 256, UInt8.ofNat (flagsAgain n.val) = UInt8.ofNat n.val ↔
      n.val < 0x40 ∧ (n.val &&& ODD_FLAG = 0 → n.val % 16 = 0) := by decide +kernel
  exact cases ⟨n, byte⟩

theorem hexPrefix_behindFlags (first : UInt8) (rest : Bytes) :
    hexPrefix (behindFlags first rest) (first.toNat &&& LEAF_FLAG == LEAF_FLAG) =
      UInt8.ofNat (flagsAgain first.toNat) :: rest := by
  have even : (nibbles rest).length % 2 = 0 := by
    rw [nibbles_length]
    omega
  unfold behindFlags flagsAgain
  by_cases odd : first.toNat &&& ODD_FLAG == ODD_FLAG
  · have parity : (first.toNat % 16 :: nibbles rest).length % 2 = 1 := by
      rw [List.length_cons]
      omega
    simp only [odd, ↓reduceIte, hexPrefix, parity, beq_self_eq_true, List.headD_cons,
      List.drop_succ_cons, List.drop_zero, pairBytes_nibbles]
  · simp only [odd, Bool.false_eq_true, ↓reduceIte, hexPrefix, even, Nat.reduceBEq, List.drop_zero,
      pairBytes_nibbles]

/-- Paths and flags are read back as they were written, and what is read is
    written back exactly from the canonical encodings. -/
theorem coding_exact :
    (∀ (p : NibblePath) (f : Bool), p.width = 16 → ∃ b q, p.encode f = .ok b ∧
      decodeWithType b = .ok (q, f) ∧ q.eq p = true) ∧
    (∀ (p q : NibblePath) (f g : Bool), p.width = 16 → q.width = 16 →
      p.encode f = q.encode g → p.eq q = true ∧ f = g) ∧
    ∀ (first : UInt8) (rest : Bytes), first ≠ EXTENDED_MARKER →
      ∃ p f, decodeWithType (first :: rest) = .ok (p, f) ∧ (p.encode f = .ok (first :: rest) ↔
        first.toNat < 0x40 ∧ (first.toNat &&& ODD_FLAG = 0 → first.toNat % 16 = 0)) := by
  have digits {p : NibblePath} (width : p.width = 16) : ∀ d ∈ p.remaining, d < 16 := by
    intro d member
    exact width ▸ p.remaining_valid d member
  refine ⟨?_, ?_, ?_⟩
  · intro p f width
    obtain ⟨q, decoded, _, same⟩ := decode_hexPrefix p.remaining f (digits width)
    exact ⟨_, q, NibblePath.encode_hex width f, decoded, (NibblePath.eq_iff q p).mpr same⟩
  · intro p q f g left right same
    rw [NibblePath.encode_hex left, NibblePath.encode_hex right, Except.ok.injEq] at same
    obtain ⟨paths, flags⟩ := hexPrefix_injective (digits left) (digits right) same
    exact ⟨(NibblePath.eq_iff p q).mpr paths, flags⟩
  · intro first rest unmarked
    obtain ⟨p, decoded, width, remaining⟩ := decode_plain unmarked rest
    refine ⟨p, _, decoded, ?_⟩
    have front : (UInt8.ofNat (flagsAgain first.toNat) = first) =
        (UInt8.ofNat (flagsAgain first.toNat) = UInt8.ofNat first.toNat) := by
      rw [UInt8.ofNat_toNat]
    rw [NibblePath.encode_hex width, remaining, hexPrefix_behindFlags, Except.ok.injEq,
      List.cons.injEq, front, flagsAgain_iff first.toNat_lt]
    simp only [and_true]

theorem coding_exact_sample :
    (∃ b q, (⟨16, [3, 1, 2], 1, by decide⟩ : NibblePath).encode true = .ok b ∧
      decodeWithType b = .ok (q, true) ∧ q.eq ⟨16, [3, 1, 2], 1, by decide⟩ = true) ∧
    ∃ p f, decodeWithType [0x71, 0xab] = .ok (p, f) ∧ (p.encode f = .ok [0x71, 0xab] ↔
      (0x71 : Nat) < 0x40 ∧ (0x71 &&& ODD_FLAG = 0 → 0x71 % 16 = 0)) :=
  ⟨coding_exact.1 _ _ rfl, coding_exact.2.2 0x71 [0xab] (by decide)⟩

end NibblePaths
