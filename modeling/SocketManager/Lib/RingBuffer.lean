import Mathlib.Data.List.Infix
import Mathlib.Tactic.Common

/-! Bounded ring buffers, as an interface with laws. `RingBuffer α` lists the operations a producer
    and a consumer use (push a slice, look at the first contiguous slice, advance the read index)
    and what each does to the FIFO content, seen through `occupied`. A development that uses a ring
    takes a `RingBuffer` as a parameter and relies on the laws alone.

    `circular` is one implementation: a read position that wraps at the capacity, so that the
    content may lie in two pieces of which `left` is the first. -/

/-- The operations of a single-producer single-consumer ring and their laws. -/
structure RingBuffer (α : Type) where
  /-- The shared buffer. -/
  Rb : Type
  /-- An empty buffer with room for that many elements. -/
  new : Nat → Rb
  capacity : Rb → Nat
  /-- The stored elements, oldest first. -/
  occupied : Rb → List α
  /-- Push as much of a slice as there is room for; how many went in, and the buffer after. -/
  pushSlice : Rb → List α → Nat × Rb
  /-- The first of the two contiguous slices that hold the content. -/
  left : Rb → List α
  /-- Forget that many of the oldest elements. -/
  advanceReadIndex : Rb → Nat → Rb
  capacity_new : ∀ n, capacity (new n) = n
  occupied_new : ∀ n, occupied (new n) = []
  occupied_le : ∀ r, (occupied r).length ≤ capacity r
  pushSlice_count : ∀ r xs, (pushSlice r xs).1 = min xs.length (capacity r - (occupied r).length)
  occupied_pushSlice : ∀ r xs,
    occupied (pushSlice r xs).2 = occupied r ++ xs.take (pushSlice r xs).1
  capacity_pushSlice : ∀ r xs, capacity (pushSlice r xs).2 = capacity r
  left_isPrefix : ∀ r, left r <+: occupied r
  left_eq_nil : ∀ r, left r = [] → occupied r = []
  occupied_advance : ∀ r n, n ≤ (occupied r).length →
    occupied (advanceReadIndex r n) = (occupied r).drop n
  capacity_advance : ∀ r n, capacity (advanceReadIndex r n) = capacity r

namespace RingBuffer
variable {α : Type} (R : RingBuffer α)

attribute [simp] capacity_new occupied_new capacity_pushSlice capacity_advance

/-- Free slots. -/
def vacant (r : R.Rb) : Nat := R.capacity r - (R.occupied r).length

theorem pushSlice_count_eq (r : R.Rb) (xs : List α) :
    (R.pushSlice r xs).1 = min xs.length (R.vacant r) :=
  R.pushSlice_count r xs

theorem pushSlice_le_length (r : R.Rb) (xs : List α) : (R.pushSlice r xs).1 ≤ xs.length := by
  rw [pushSlice_count_eq]; exact min_le_left _ _

/-- A push uses up exactly the slots it reports. -/
theorem vacant_pushSlice (r : R.Rb) (xs : List α) :
    R.vacant (R.pushSlice r xs).2 = R.vacant r - (R.pushSlice r xs).1 := by
  have hle := R.pushSlice_le_length r xs
  simp only [vacant, capacity_pushSlice, occupied_pushSlice, List.length_append, List.length_take]
  omega

/-- A slice that fits goes in whole. -/
theorem occupied_pushSlice_of_fits (r : R.Rb) (xs : List α) (h : xs.length ≤ R.vacant r) :
    R.occupied (R.pushSlice r xs).2 = R.occupied r ++ xs := by
  rw [occupied_pushSlice, pushSlice_count_eq, min_eq_left h, List.take_length]

end RingBuffer

/-! ### A circular implementation -/

/-- A read position and the stored elements, never more than the capacity. -/
structure Circular (α : Type) where
  cap : Nat
  /-- How many elements were ever read; the physical read index is its remainder by `cap`. -/
  head : Nat
  occ : List α
  le : occ.length ≤ cap

namespace Circular
variable {α : Type}

def push (r : Circular α) (xs : List α) : Nat × Circular α :=
  let n := min xs.length (r.cap - r.occ.length)
  (n, ⟨r.cap, r.head, r.occ ++ xs.take n, by
    have := r.le
    simp only [List.length_append, List.length_take]; omega⟩)

/-- The elements before the wrap-around. -/
def left (r : Circular α) : List α := r.occ.take (r.cap - r.head % r.cap)

def advance (r : Circular α) (n : Nat) : Circular α :=
  ⟨r.cap, r.head + n, r.occ.drop n, by
    have := r.le
    simp only [List.length_drop]; omega⟩

theorem left_eq_nil (r : Circular α) (h : r.left = []) : r.occ = [] := by
  rcases Nat.eq_zero_or_pos r.cap with h0 | hpos
  · exact List.eq_nil_of_length_eq_zero (by have := r.le; omega)
  · rcases List.take_eq_nil_iff.mp h with hz | hnil
    · have := Nat.mod_lt r.head hpos; omega
    · exact hnil

end Circular

/-- The circular buffer meets the laws. -/
def RingBuffer.circular (α : Type) : RingBuffer α where
  Rb := Circular α
  new n := ⟨n, 0, [], Nat.zero_le _⟩
  capacity r := r.cap
  occupied r := r.occ
  pushSlice := Circular.push
  left := Circular.left
  advanceReadIndex := Circular.advance
  capacity_new _ := rfl
  occupied_new _ := rfl
  occupied_le r := r.le
  pushSlice_count _ _ := rfl
  occupied_pushSlice _ _ := rfl
  capacity_pushSlice _ _ := rfl
  left_isPrefix r := List.take_prefix _ r.occ
  left_eq_nil := Circular.left_eq_nil
  occupied_advance _ _ _ := rfl
  capacity_advance _ _ := rfl
