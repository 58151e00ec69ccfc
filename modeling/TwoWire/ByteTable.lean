/-!
# Tables indexed by a byte

A table has one entry for each of the 256 bytes. Two tables are equal if they agree at every byte.
-/
namespace TwoWire

structure ByteTable (α : Type) where
  entries : Vector α 256
  deriving DecidableEq

namespace ByteTable

variable {α : Type}

/-- The same entry everywhere. -/
def fill (a : α) : ByteTable α := ⟨Vector.replicate 256 a⟩

def get (t : ByteTable α) (i : UInt8) : α :=
  have := i.toNat_lt
  t.entries[i.toNat]

def set (t : ByteTable α) (i : UInt8) (a : α) : ByteTable α :=
  ⟨t.entries.set i.toNat a i.toNat_lt⟩

@[simp] theorem get_fill (a : α) (i : UInt8) : (fill a).get i = a := by
  simp [fill, get]

theorem get_set (t : ByteTable α) (i j : UInt8) (a : α) :
    (t.set i a).get j = if i = j then a else t.get j := by
  simp only [get, set, Vector.getElem_set, ← UInt8.toNat_inj]

@[simp] theorem get_set_self (t : ByteTable α) (i : UInt8) (a : α) : (t.set i a).get i = a := by
  simp [get_set]

theorem get_set_of_ne (t : ByteTable α) {i j : UInt8} (a : α) (h : i ≠ j) :
    (t.set i a).get j = t.get j := by
  simp [get_set, h]

@[ext] theorem ext {t u : ByteTable α} (h : ∀ i, t.get i = u.get i) : t = u := by
  cases t with | mk xs =>
  cases u with | mk ys =>
  congr
  refine Vector.ext fun i hi => ?_
  have := h (UInt8.ofNat i)
  simpa [get, UInt8.toNat_ofNat_of_lt' hi] using this

@[simp] theorem set_set (t : ByteTable α) (i : UInt8) (a a' : α) :
    (t.set i a).set i a' = t.set i a' := by
  refine ext fun j => ?_
  rw [get_set, get_set, get_set]
  split <;> rfl

@[simp] theorem set_get (t : ByteTable α) (i : UInt8) : t.set i (t.get i) = t := by
  refine ext fun j => ?_
  rw [get_set]
  split
  · rename_i h
    rw [h]
  · rfl

/-- Set the listed entries in order; of two entries for one byte the later one stays. -/
def setAll (t : ByteTable α) : List (UInt8 × α) → ByteTable α
  | [] => t
  | (i, a) :: rest => (t.set i a).setAll rest

end ByteTable
end TwoWire
