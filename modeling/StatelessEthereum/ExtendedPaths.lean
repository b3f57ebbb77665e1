import StatelessEthereum.NibblePath

/- The extended coding of paths whose digits are not hexadecimal
   (merkle/nibble_path.py): marker, flags, width, length and a byte for each digit. -/
namespace ExtendedPaths
open PythonError BigEndian NibblePaths

/- What the constructor takes. -/

theorem checkWidth_ok_iff (width : Nat) : checkWidth width = .ok () ↔ width ∈ [2, 4, 16, 256] := by
  by_cases small : width < 257
  · have cases : ∀ w : Fin 257, (checkWidth w.val = .ok () ↔ w.val ∈ [2, 4, 16, 256]) := by
      decide +kernel
    exact cases ⟨width, small⟩
  · have wide : width < 2 ∨ width > 256 := by omega
    rw [checkWidth, if_pos wide]
    simp only [reduceCtorEq, List.mem_cons, List.not_mem_nil, or_false, false_iff]
    omega

theorem ofDigits_ok {digits : List Nat} {offset width : Nat} {p : NibblePath}
    (built : ofDigits digits offset width = .ok p) :
    checkWidth width = .ok () ∧ p.width = width ∧ p.digits = digits ∧ p.offset = offset := by
  obtain ⟨_, accepted, built⟩ := ok_of_bind built
  unfold ofCheckedDigits at built
  split at built
  · cases built
    exact ⟨accepted, rfl, rfl, rfl⟩
  · cases built

theorem ofDigits_valid {digits : List Nat} {width : Nat} (accepted : checkWidth width = .ok ())
    (valid : ∀ d ∈ digits, d < width) (offset : Nat) :
    ofDigits digits offset width = .ok ⟨width, digits, offset, valid⟩ := by
  simp only [ofDigits, accepted, bind, Except.bind]
  exact dif_pos valid

/- The coding. -/

def flagByte (isLeaf : Bool) : UInt8 := if isLeaf then 0x01 else 0x00

theorem flagByte_read (isLeaf : Bool) : (flagByte isLeaf &&& 0x01 == 0x01) = isLeaf := by
  cases isLeaf <;> decide

/-- Marker, flags, width, length and digits. -/
def extended (width : Nat) (ds : List Nat) (isLeaf : Bool) : Bytes :=
  EXTENDED_MARKER :: flagByte isLeaf :: UInt8.ofNat width :: (toBytes 4 ds.length ++ ds.map UInt8.ofNat)

theorem encode_extended {p : NibblePath} (other : p.width ≠ 16) (narrow : p.width < 256)
    (short : p.len < 4294967296) (isLeaf : Bool) :
    p.encode isLeaf = .ok (extended p.width p.remaining isLeaf) := by
  have fits : ¬ 256 ^ 4 ≤ p.len := by omega
  rw [NibblePath.encode, if_neg other, if_neg (by omega), if_neg fits, extended,
    NibblePath.remaining_length]
  rfl

theorem encode_wide {p : NibblePath} (wide : p.width = 256) (isLeaf : Bool) :
    p.encode isLeaf = .error (.valueError "bytes must be in range(0, 256)") := by
  simp [NibblePath.encode, wide]

theorem digits_read {width : Nat} (narrow : width < 256) {ds : List Nat}
    (valid : ∀ d ∈ ds, d < width) : (ds.map UInt8.ofNat).map UInt8.toNat = ds := by
  rw [List.map_map]
  conv => rhs; rw [← List.map_id ds]
  apply List.map_congr_left
  intro d member
  have small : d < 256 := Nat.lt_trans (valid d member) narrow
  exact UInt8.toNat_ofNat_of_lt' small

/-- The decoder cuts the encoding where the encoder put it together. -/
theorem decode_extended {width : Nat} (accepted : checkWidth width = .ok ()) (narrow : width < 256)
    {ds : List Nat} (valid : ∀ d ∈ ds, d < width) (short : ds.length < 4294967296)
    (isLeaf : Bool) :
    decodeWithType (extended width ds isLeaf) = .ok (⟨width, ds, 0, valid⟩, isLeaf) := by
  have size : (toBytes 4 ds.length).length = 4 := toBytes_length _ _
  have enough : ¬ (extended width ds isLeaf).length < 7 := by
    simp only [extended, List.length_cons, List.length_append, size]
    omega
  have widthByte : (UInt8.ofNat width).toNat = width := UInt8.toNat_ofNat_of_lt' narrow
  have length : BigEndian.ofBytes (((extended width ds isLeaf).drop 3).take 4) = ds.length := by
    simp only [extended, List.drop_succ_cons, List.drop_zero]
    rw [List.take_append_of_le_length (by omega), List.take_of_length_le (by omega)]
    exact ofBytes_toBytes_of_lt short
  have digits : (((extended width ds isLeaf).drop 7).take ds.length).map UInt8.toNat = ds := by
    simp only [extended, List.drop_succ_cons]
    rw [List.drop_append_of_le_length (by omega), List.drop_of_length_le (by omega),
      List.nil_append, List.take_of_length_le (by simp), digits_read narrow valid]
  rw [extended, decodeWithType, ← extended]
  simp only [↓reduceIte, enough, length, digits, ne_eq, not_true_eq_false]
  simp only [extended, List.getD_cons_succ, List.getD_cons_zero, widthByte, flagByte_read,
    ofDigits_valid accepted valid, bind, Except.bind]

theorem hexPrefix_unmarked {ds : List Nat} (digits : ∀ d ∈ ds, d < 16) (isLeaf : Bool) :
    (hexPrefix ds isLeaf).head? ≠ some EXTENDED_MARKER := by
  have first : ds.headD 0 < 16 := by
    cases ds with
    | nil => simp
    | cons d rest => exact digits d (by simp)
  obtain ⟨_, unmarked, _⟩ := flag_byte (ds.length % 2 == 1) isLeaf _ first
  simp only [hexPrefix, List.head?_cons, ne_eq, Option.some.injEq]
  exact unmarked

/- Paths of every width. -/

/-- A path and its kind are read back as they were written, and what was written is
    no hex-prefix encoding. -/
structure RoundTrips (p : NibblePath) (isLeaf : Bool) : Prop where
  back : ∃ b q, p.encode isLeaf = .ok b ∧ decodeWithType b = .ok (q, isLeaf) ∧
    q.width = p.width ∧ q.remaining = p.remaining
  apart : ∀ (b : Bytes) (q : NibblePath) (g : Bool), p.encode isLeaf = .ok b → q.width = 16 →
    q.encode g ≠ .ok b

theorem extended_roundTrips {p : NibblePath} (accepted : checkWidth p.width = .ok ())
    (other : p.width ≠ 16) (narrow : p.width < 256) (short : p.len < 4294967296) (isLeaf : Bool) :
    RoundTrips p isLeaf := by
  have written := encode_extended other narrow short isLeaf
  have few : p.remaining.length < 4294967296 := by rwa [NibblePath.remaining_length]
  refine ⟨⟨_, _, written, decode_extended accepted narrow p.remaining_valid few isLeaf, rfl, rfl⟩, ?_⟩
  intro b q g run width same
  rw [written, Except.ok.injEq] at run
  rw [NibblePath.encode_hex width, Except.ok.injEq] at same
  refine hexPrefix_unmarked (fun d member => width ▸ q.remaining_valid d member) g ?_
  rw [same, ← run]
  rfl

/-- Of the widths that the constructor takes, the coding serves all but the last. -/
theorem roundTrips_iff {digits : List Nat} {offset width : Nat} {p : NibblePath}
    (built : ofDigits digits offset width = .ok p) (other : width ≠ 16)
    (short : digits.length < 4294967296) (isLeaf : Bool) : RoundTrips p isLeaf ↔ width ≠ 256 := by
  obtain ⟨accepted, rfl, rfl, rfl⟩ := ofDigits_ok built
  have known := (checkWidth_ok_iff p.width).mp accepted
  constructor
  · rintro trips wide
    obtain ⟨b, _, run, _⟩ := trips.back
    rw [encode_wide wide] at run
    cases run
  · intro narrow
    have less : p.len < 4294967296 := Nat.lt_of_le_of_lt (Nat.sub_le _ _) short
    refine extended_roundTrips accepted other ?_ less isLeaf
    simp only [List.mem_cons, List.not_mem_nil, or_false] at known
    omega

theorem roundTrips_sample : RoundTrips ⟨4, [3, 0, 2], 1, by decide⟩ true :=
  (roundTrips_iff (ofDigits_valid (by decide) _ 1)
    (by decide) (by decide) true).mpr (by decide)

/-- One byte as a path of width 256: the constructor takes it, the encoder raises. -/
theorem wide_refused : ∃ p, ofDigits [7] 0 256 = .ok p ∧
    p.encode true = .error (.valueError "bytes must be in range(0, 256)") ∧
    ¬ RoundTrips p true := by
  have built := @ofDigits_valid [7] 256 (by decide) (by decide) 0
  refine ⟨_, built, rfl, fun trips => ?_⟩
  obtain ⟨b, _, run, _⟩ := trips.back
  cases run

end ExtendedPaths
