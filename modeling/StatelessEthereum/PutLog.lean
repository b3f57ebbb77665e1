import Mathlib.Data.List.Basic

/- A key-value store as the log of its puts, newest first. Reading a key
   returns the newest put under it; no put is ever removed. -/
namespace PutLog
variable {κ ν : Type} [DecidableEq κ]

structure Store (κ ν : Type) where
  puts : List (κ × ν)
  deriving DecidableEq

def Store.empty : Store κ ν := ⟨[]⟩

def Store.put (s : Store κ ν) (k : κ) (v : ν) : Store κ ν := ⟨(k, v) :: s.puts⟩

def Store.get (s : Store κ ν) (k : κ) : Option ν := s.puts.lookup k

/-- No key was ever put with two different contents. -/
def Store.Consistent (s : Store κ ν) : Prop :=
  ∀ k a b, (k, a) ∈ s.puts → (k, b) ∈ s.puts → a = b

omit [DecidableEq κ] in
theorem consistent_iff {s : Store κ ν} : s.Consistent ↔
    ∀ p ∈ s.puts, ∀ q ∈ s.puts, p.1 = q.1 → p.2 = q.2 := by
  constructor
  · rintro valid ⟨k, a⟩ ha ⟨_, b⟩ hb rfl
    exact valid k a b ha hb
  · intro pairs k a b ha hb
    exact pairs _ ha _ hb rfl

instance [DecidableEq ν] (s : Store κ ν) : Decidable s.Consistent :=
  decidable_of_iff _ consistent_iff.symm

/-- The later store holds the earlier log as its oldest part. -/
def Store.Extends (old new : Store κ ν) : Prop := old.puts <:+ new.puts

omit [DecidableEq κ] in
theorem extends_refl (s : Store κ ν) : s.Extends s := List.suffix_refl _

omit [DecidableEq κ] in
theorem extends_trans {s t u : Store κ ν} (first : s.Extends t) (next : t.Extends u) :
    s.Extends u := List.IsSuffix.trans first next

omit [DecidableEq κ] in
theorem extends_put (s : Store κ ν) (k : κ) (v : ν) : s.Extends (s.put k v) :=
  List.suffix_cons _ _

omit [DecidableEq κ] in
theorem extends_member {s t : Store κ ν} (later : s.Extends t) {p : κ × ν}
    (member : p ∈ s.puts) : p ∈ t.puts := later.subset member

omit [DecidableEq κ] in
theorem consistent_earlier {s t : Store κ ν} (later : s.Extends t) (valid : t.Consistent) :
    s.Consistent := fun k a b ha hb =>
  valid k a b (extends_member later ha) (extends_member later hb)

theorem get_member {s : Store κ ν} {k : κ} {v : ν} (found : s.get k = some v) :
    (k, v) ∈ s.puts := by
  obtain ⟨newer, older, split, _⟩ := List.lookup_eq_some_iff.mp found
  simp [split]

theorem get_of_member {s : Store κ ν} (valid : s.Consistent) {k : κ} {v : ν}
    (member : (k, v) ∈ s.puts) : s.get k = some v := by
  cases found : s.get k with
  | none =>
    have absent := List.lookup_eq_none_iff.mp found (k, v) member
    simp at absent
  | some w => rw [valid k v w member (get_member found)]

theorem get_put (s : Store κ ν) (k : κ) (v : ν) : (s.put k v).get k = some v := by
  simp [Store.get, Store.put]

/-- A key that was ever put can be read. -/
theorem get_some {s : Store κ ν} {k : κ} {v : ν} (member : (k, v) ∈ s.puts) :
    ∃ w, s.get k = some w := by
  cases found : s.get k with
  | none =>
    have absent := List.lookup_eq_none_iff.mp found (k, v) member
    simp at absent
  | some w => exact ⟨w, rfl⟩

omit [DecidableEq κ] in
theorem consistent_of_digest {s : Store κ ν} (digest : ν → κ)
    (addressed : ∀ p ∈ s.puts, p.1 = digest p.2)
    (separates : ∀ a ∈ s.puts.map Prod.snd, ∀ b ∈ s.puts.map Prod.snd,
      digest a = digest b → a = b) : s.Consistent := by
  intro k a b ha hb
  refine separates a (List.mem_map.mpr ⟨_, ha, rfl⟩) b (List.mem_map.mpr ⟨_, hb, rfl⟩) ?_
  rw [← addressed _ ha, ← addressed _ hb]

end PutLog
