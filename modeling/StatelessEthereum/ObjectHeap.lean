import Mathlib.Data.List.Basic

/- Mutable objects with an identity. An object is named by its place in the
   heap; new objects go to the end and none is ever removed. -/
namespace ObjectHeap
variable {α : Type} [Inhabited α]

structure Heap (α : Type) where
  objects : List α
  deriving DecidableEq

def Heap.empty : Heap α := ⟨[]⟩

/-- The identity the next object gets. -/
def Heap.size (h : Heap α) : Nat := h.objects.length

def Heap.read (h : Heap α) (id : Nat) : α := h.objects.getD id default

def Heap.alloc (h : Heap α) (a : α) : Heap α := ⟨h.objects ++ [a]⟩

def Heap.write (h : Heap α) (id : Nat) (a : α) : Heap α := ⟨h.objects.set id a⟩

omit [Inhabited α] in
@[simp] theorem size_alloc (h : Heap α) (a : α) : (h.alloc a).size = h.size + 1 := by
  simp [Heap.alloc, Heap.size]

omit [Inhabited α] in
@[simp] theorem size_write (h : Heap α) (id : Nat) (a : α) : (h.write id a).size = h.size := by
  simp [Heap.write, Heap.size]

@[simp] theorem read_alloc_new (h : Heap α) (a : α) : (h.alloc a).read h.size = a := by
  simp [Heap.alloc, Heap.read, Heap.size]

theorem read_alloc_old {h : Heap α} {id : Nat} (held : id < h.size) (a : α) :
    (h.alloc a).read id = h.read id := by
  simp only [Heap.alloc, Heap.read, List.getD_eq_getElem?_getD]
  rw [List.getElem?_append_left held]

theorem read_write_same {h : Heap α} {id : Nat} (held : id < h.size) (a : α) :
    (h.write id a).read id = a := by
  simp only [Heap.write, Heap.read, List.getD_eq_getElem?_getD]
  rw [List.getElem?_set_self held]
  rfl

theorem read_write_other (h : Heap α) {id other : Nat} (apart : other ≠ id) (a : α) :
    (h.write id a).read other = h.read other := by
  simp only [Heap.write, Heap.read, List.getD_eq_getElem?_getD]
  rw [List.getElem?_set_ne (Ne.symm apart)]

omit [Inhabited α] in
@[simp] theorem write_write (h : Heap α) (id : Nat) (a b : α) :
    (h.write id a).write id b = h.write id b := by
  simp [Heap.write]

end ObjectHeap
