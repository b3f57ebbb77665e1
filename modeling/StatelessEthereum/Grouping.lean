import Mathlib.Algebra.BigOperators.Group.List.Basic
import Mathlib.Data.List.Nodup

/- Items gathered under names, in the order in which the names first appear.
   A name keeps the data it came with first. -/
namespace Grouping
variable {κ α β M : Type} [AddCommMonoid M]

structure Group (κ α β : Type) where
  name : κ
  data : α
  items : List β

def names (groups : List (Group κ α β)) : List κ := groups.map Group.name

/-- What all items add up to, each read with the data of its group. -/
def weight (f : α → β → M) (groups : List (Group κ α β)) : M :=
  (groups.map fun g => (g.items.map (f g.data)).sum).sum

/-- No name has two groups, and every group has the data that its name tells. -/
structure Coherent (tells : κ → α → Prop) (groups : List (Group κ α β)) : Prop where
  distinct : (names groups).Nodup
  told : ∀ g ∈ groups, tells g.name g.data

theorem coherent_nil (tells : κ → α → Prop) : Coherent tells ([] : List (Group κ α β)) :=
  ⟨List.nodup_nil, fun _ member => absurd member List.not_mem_nil⟩

section Operations
variable [DecidableEq κ]

/-- A name that is new gets a group without items. -/
def enroll (name : κ) (data : α) (groups : List (Group κ α β)) : List (Group κ α β) :=
  if name ∈ names groups then groups else groups ++ [⟨name, data, []⟩]

def attach (name : κ) (item : β) (groups : List (Group κ α β)) : List (Group κ α β) :=
  groups.map fun g => if g.name = name then { g with items := g.items ++ [item] } else g

theorem enroll_names (name : κ) (data : α) (groups : List (Group κ α β)) :
    names (enroll name data groups) =
      if name ∈ names groups then names groups else names groups ++ [name] := by
  unfold enroll
  split
  · rfl
  · simp [names]

theorem enroll_member (name : κ) (data : α) (groups : List (Group κ α β)) (other : κ) :
    other ∈ names (enroll name data groups) ↔ other ∈ names groups ∨ other = name := by
  rw [enroll_names]
  split
  · rename_i present
    constructor
    · exact Or.inl
    · rintro (member | rfl)
      · exact member
      · exact present
  · rw [List.mem_append, List.mem_singleton]

theorem enroll_coherent {tells : κ → α → Prop} {groups : List (Group κ α β)}
    (coherent : Coherent tells groups) {name : κ} {data : α} (told : tells name data) :
    Coherent tells (enroll name data groups) := by
  unfold enroll
  split
  · exact coherent
  · rename_i fresh
    constructor
    · rw [names, List.map_append]
      exact coherent.distinct.append (List.nodup_singleton name)
        (List.disjoint_singleton.mpr fresh)
    · intro g member
      rcases List.mem_append.mp member with older | new
      · exact coherent.told g older
      · rw [List.mem_singleton.mp new]
        exact told

theorem enroll_weight (f : α → β → M) (name : κ) (data : α) (groups : List (Group κ α β)) :
    weight f (enroll name data groups) = weight f groups := by
  unfold enroll
  split
  · rfl
  · simp [weight]

theorem attach_names (name : κ) (item : β) (groups : List (Group κ α β)) :
    names (attach name item groups) = names groups := by
  rw [names, attach, List.map_map]
  apply List.map_congr_left
  intro g _
  rw [Function.comp_apply]
  split <;> rfl

theorem attach_coherent {tells : κ → α → Prop} {groups : List (Group κ α β)}
    (coherent : Coherent tells groups) (name : κ) (item : β) :
    Coherent tells (attach name item groups) := by
  constructor
  · rw [attach_names]
    exact coherent.distinct
  · intro g member
    obtain ⟨older, inside, rfl⟩ := List.mem_map.mp member
    have told := coherent.told older inside
    split
    · exact told
    · exact told

theorem enroll_items {good : β → Prop} {groups : List (Group κ α β)}
    (fine : ∀ g ∈ groups, ∀ item ∈ g.items, good item) (name : κ) (data : α) :
    ∀ g ∈ enroll name data groups, ∀ item ∈ g.items, good item := by
  unfold enroll
  split
  · exact fine
  · intro g member
    rcases List.mem_append.mp member with older | new
    · exact fine g older
    · rw [List.mem_singleton.mp new]
      simp

theorem attach_items {good : β → Prop} {groups : List (Group κ α β)}
    (fine : ∀ g ∈ groups, ∀ item ∈ g.items, good item) (name : κ) {item : β} (new : good item) :
    ∀ g ∈ attach name item groups, ∀ other ∈ g.items, good other := by
  intro g member
  obtain ⟨older, inside, rfl⟩ := List.mem_map.mp member
  split
  · intro other listed
    rcases List.mem_append.mp listed with first | last
    · exact fine older inside other first
    · rwa [List.mem_singleton.mp last]
  · exact fine older inside

/-- Nothing is attached under a name that no group has. -/
theorem attach_absent {name : κ} {groups : List (Group κ α β)} (absent : name ∉ names groups)
    (item : β) : attach name item groups = groups := by
  unfold attach
  conv_rhs => rw [← List.map_id groups]
  apply List.map_congr_left
  intro g member
  have other : g.name ≠ name := fun same => absent (same ▸ List.mem_map_of_mem member)
  rw [if_neg other, id]

/-- An item counts with the data its name tells, whatever group it came to. -/
theorem attach_weight (f : α → β → M) {tells : κ → α → Prop} {groups : List (Group κ α β)}
    (coherent : Coherent tells groups) {name : κ} {data : α}
    (unique : ∀ other, tells name other → other = data) (present : name ∈ names groups)
    (item : β) : weight f (attach name item groups) = weight f groups + f data item := by
  induction groups with
  | nil => exact absurd present List.not_mem_nil
  | cons g groups ih =>
    obtain ⟨first, rest⟩ := List.nodup_cons.mp coherent.distinct
    have later : Coherent tells groups :=
      ⟨rest, fun other member => coherent.told other (List.mem_cons_of_mem _ member)⟩
    have split : weight f (attach name item (g :: groups)) =
        ((if g.name = name then { g with items := g.items ++ [item] } else g).items.map
          (f (if g.name = name then { g with items := g.items ++ [item] } else g).data)).sum +
          weight f (attach name item groups) := rfl
    have whole : weight f (g :: groups) = (g.items.map (f g.data)).sum + weight f groups := rfl
    rw [split, whole]
    by_cases same : g.name = name
    · have known := coherent.told g List.mem_cons_self
      rw [same] at known first
      simp only [if_pos same, attach_absent first, List.map_append, List.sum_append, List.map_singleton,
        List.sum_singleton, unique g.data known]
      exact add_right_comm _ _ _
    · have below : name ∈ names groups := by
        rcases List.mem_cons.mp present with here | below
        · exact absurd here.symm same
        · exact below
      rw [if_neg same, ih later below, add_assoc]

end Operations

end Grouping
