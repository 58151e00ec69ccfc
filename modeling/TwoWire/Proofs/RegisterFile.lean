import TwoWire.Bench
import TwoWire.Message
/-!
# Register files

What a chain of messages means to the slaves, one message after another and without a controller
between. The first byte of a write sets the pointer and the others go to consecutive registers; a
read takes consecutive registers from the pointer on. Registers wrap around after the last one.
-/
namespace TwoWire.Bench

theorem register_of_get {b : Bench} {address : UInt8} {s : Slave}
    (h : b.slaves.get address = some s) (register : UInt8) :
    b.register address register = s.registers.get register := by
  unfold Bench.register slave?
  rw [h]
  rfl

namespace Slave

/-- Store bytes one after another. -/
def storeAll (s : Slave) : List UInt8 → Slave
  | [] => s
  | byte :: rest => (s.store byte).storeAll rest

/-- Take the bytes of a write. -/
def write (s : Slave) : List UInt8 → Slave
  | [] => s
  | register :: bytes => (s.aim register).storeAll bytes

/-- The register `i` places after the pointer. -/
def peek (s : Slave) (i : Nat) : UInt8 := s.registers.get (s.pointer + UInt8.ofNat i)

/-- The first `n` bytes from the pointer on. -/
def window (s : Slave) (n : Nat) : List UInt8 := (List.range n).map s.peek

/-- Move the pointer on by `n` places. -/
def skip (s : Slave) (n : Nat) : Slave := { s with pointer := s.pointer + UInt8.ofNat n }

@[simp] theorem length_window (s : Slave) (n : Nat) : (s.window n).length = n := by
  simp [window]

theorem window_succ (s : Slave) (n : Nat) : s.window (n + 1) = s.window n ++ [s.peek n] := by
  simp [window, List.range_succ]

@[simp] theorem skip_zero (s : Slave) : s.skip 0 = s := by
  simp [skip]

@[simp] theorem advance_skip (s : Slave) (n : Nat) : (s.skip n).advance = s.skip (n + 1) := by
  simp [skip, advance, UInt8.ofNat_add, UInt8.add_assoc]

@[simp] theorem current_skip (s : Slave) (n : Nat) : (s.skip n).current = s.peek n := rfl

@[simp] theorem acknowledges_storeAll (s : Slave) (bytes : List UInt8) :
    (s.storeAll bytes).acknowledges = s.acknowledges := by
  induction bytes generalizing s with
  | nil => rfl
  | cons byte rest ih => exact ih (s.store byte)

@[simp] theorem acknowledges_write (s : Slave) (bytes : List UInt8) :
    (s.write bytes).acknowledges = s.acknowledges := by
  cases bytes with
  | nil => rfl
  | cons register rest => exact acknowledges_storeAll (s.aim register) rest

@[simp] theorem stallAfter_storeAll (s : Slave) (bytes : List UInt8) :
    (s.storeAll bytes).stallAfter = s.stallAfter := by
  induction bytes generalizing s with
  | nil => rfl
  | cons byte rest ih => exact ih (s.store byte)

@[simp] theorem stallAfter_write (s : Slave) (bytes : List UInt8) :
    (s.write bytes).stallAfter = s.stallAfter := by
  cases bytes with
  | nil => rfl
  | cons register rest => exact stallAfter_storeAll (s.aim register) rest

/-! ## Writing over what was written -/

/-- The register is one of the first `n` from the pointer on. -/
def Touches (s : Slave) (n : Nat) (register : UInt8) : Prop :=
  ∃ i < n, s.pointer + UInt8.ofNat i = register

/-- The register `i` places after the next one. -/
theorem add_one_add_ofNat (register : UInt8) (i : Nat) :
    register + 1 + UInt8.ofNat i = register + UInt8.ofNat (i + 1) := by
  rw [UInt8.ofNat_add, UInt8.add_comm (UInt8.ofNat i), ← UInt8.add_assoc]
  rfl

theorem touches_succ {s : Slave} {n : Nat} {register : UInt8} (byte : UInt8) :
    s.Touches (n + 1) register ↔ s.pointer = register ∨ (s.store byte).Touches n register := by
  constructor
  · rintro ⟨i, hi, rfl⟩
    cases i with
    | zero => exact .inl (UInt8.add_zero _).symm
    | succ i => exact .inr ⟨i, Nat.lt_of_succ_lt_succ hi, add_one_add_ofNat s.pointer i⟩
  · rintro (rfl | ⟨i, hi, rfl⟩)
    · exact ⟨0, Nat.succ_pos n, UInt8.add_zero _⟩
    · exact ⟨i + 1, Nat.succ_lt_succ hi, (add_one_add_ofNat s.pointer i).symm⟩

/-- Fewer than 256 registers after the pointer do not come around to it again. -/
theorem not_touches_pointer {s : Slave} {n : Nat} (h : n < 256) (byte : UInt8) :
    ¬ (s.store byte).Touches n s.pointer := by
  rintro ⟨i, hi, hback⟩
  change s.pointer + 1 + UInt8.ofNat i = s.pointer at hback
  rw [add_one_add_ofNat, UInt8.add_eq_left] at hback
  have hzero := congrArg UInt8.toNat hback
  rw [UInt8.toNat_ofNat_of_lt' (show i + 1 < 256 by omega)] at hzero
  cases hzero

/-- Bytes stored from a pointer on leave the other registers as they were. -/
theorem get_storeAll_of_not_touches {s : Slave} {bytes : List UInt8} {register : UInt8}
    (h : ¬ s.Touches bytes.length register) :
    (s.storeAll bytes).registers.get register = s.registers.get register := by
  induction bytes generalizing s with
  | nil => rfl
  | cons byte rest ih =>
    rw [List.length_cons, touches_succ byte, not_or] at h
    rw [storeAll, ih h.2]
    exact ByteTable.get_set_of_ne _ _ h.1

/-- Bytes stored from a pointer on stand in consecutive registers, unless they are so many that the
later ones go over the earlier ones. -/
theorem get_storeAll {s : Slave} {bytes : List UInt8} (h : bytes.length ≤ 256) {i : Nat}
    (hi : i < bytes.length) :
    (s.storeAll bytes).registers.get (s.pointer + UInt8.ofNat i) = bytes[i] := by
  induction bytes generalizing s i with
  | nil => cases hi
  | cons byte rest ih =>
    rw [List.length_cons] at h hi
    rw [storeAll]
    cases i with
    | zero =>
      change ((s.store byte).storeAll rest).registers.get (s.pointer + 0) = byte
      rw [UInt8.add_zero, get_storeAll_of_not_touches (not_touches_pointer h byte)]
      exact ByteTable.get_set_self _ _ _
    | succ i =>
      rw [← add_one_add_ofNat]
      exact ih (s := s.store byte) (Nat.le_of_succ_le h) (Nat.lt_of_succ_lt_succ hi)

/-- A file of 256 registers gives back what was written to it, from the same register on. -/
theorem window_write (s : Slave) (register : UInt8) {bytes : List UInt8}
    (h : bytes.length ≤ 256) :
    ((s.write (register :: bytes)).aim register).window bytes.length = bytes := by
  refine List.ext_getElem (length_window _ _) fun i hwindow hi => ?_
  simp only [window, List.getElem_map, List.getElem_range]
  exact get_storeAll (s := s.aim register) h hi

/-- What the registers come to does not depend on those that are written. -/
theorem registers_storeAll_congr {s s' : Slave} {bytes : List UInt8}
    (hp : s.pointer = s'.pointer)
    (h : ∀ register, ¬ s.Touches bytes.length register →
      s.registers.get register = s'.registers.get register) :
    (s.storeAll bytes).registers = (s'.storeAll bytes).registers := by
  induction bytes generalizing s s' with
  | nil =>
    refine ByteTable.ext fun register => h register ?_
    rintro ⟨i, hi, -⟩
    exact Nat.not_lt_zero i hi
  | cons byte rest ih =>
    refine ih (congrArg (· + 1) hp) fun register hfree => ?_
    change (s.registers.set s.pointer byte).get register =
      (s'.registers.set s'.pointer byte).get register
    rw [ByteTable.get_set, ByteTable.get_set, ← hp]
    by_cases hr : s.pointer = register
    · rw [if_pos hr, if_pos hr]
    · rw [if_neg hr, if_neg hr]
      refine h register ?_
      rw [List.length_cons, touches_succ byte, not_or]
      exact ⟨hr, hfree⟩

/-- The registers after a write are told by the registers before it. -/
theorem registers_write_congr {s s' : Slave} (hr : s.registers = s'.registers)
    (bytes : List UInt8) :
    (s.write bytes).registers = (s'.write bytes).registers := by
  cases bytes with
  | nil => exact hr
  | cons register rest =>
    exact registers_storeAll_congr rfl fun i _ => congrArg (fun table => table.get i) hr

/-- A write that was broken off leaves no trace once it is made in full. -/
theorem registers_write_write_take (s : Slave) (bytes : List UInt8) (n : Nat) :
    ((s.write (bytes.take n)).write bytes).registers = (s.write bytes).registers := by
  cases bytes with
  | nil => rw [List.take_nil]; rfl
  | cons register rest =>
    cases n with
    | zero => rfl
    | succ n =>
      rw [List.take_succ_cons]
      refine registers_storeAll_congr rfl fun i hfree => ?_
      refine get_storeAll_of_not_touches (s := s.aim register) ?_
      rintro ⟨j, hj, htouch⟩
      rw [List.length_take] at hj
      exact hfree ⟨j, by omega, htouch⟩

end Slave

/-! ## Chains -/

/-- The slaves on a bus, by their addresses. -/
abbrev Slaves := ByteTable (Option Slave)

namespace Slaves

/-- Change the slave at an address. -/
def change (slaves : Slaves) (address : UInt8) (f : Slave → Slave) : Slaves :=
  slaves.set address ((slaves.get address).map f)

/-- How far a read of `n` bytes moves the pointer: a single byte is over-clocked by another one. -/
def fetched (n : Nat) : Nat := if n = 1 then 2 else n

/-- The slaves after one message. -/
def afterMessage (slaves : Slaves) (m : Message) : Slaves :=
  match m.payload with
  | .write bytes => slaves.change m.address (·.write bytes)
  | .read buffer => slaves.change m.address (·.skip (fetched buffer.length))

/-- The slaves after the messages of a chain. -/
def replay (slaves : Slaves) : List Message → Slaves
  | [] => slaves
  | m :: rest => replay (slaves.afterMessage m) rest

/-- The message as it comes back: a read has its buffer full of what its slave holds. -/
def answer (slaves : Slaves) (m : Message) : Message :=
  match m.payload with
  | .write _ => m
  | .read buffer =>
    .read m.address ((slaves.get m.address).elim buffer fun s => s.window buffer.length)

/-- The messages of a chain as they come back. -/
def answers (slaves : Slaves) : List Message → List Message
  | [] => []
  | m :: rest => slaves.answer m :: answers (slaves.afterMessage m) rest

theorem replay_append (slaves : Slaves) (chain more : List Message) :
    slaves.replay (chain ++ more) = (slaves.replay chain).replay more := by
  induction chain generalizing slaves with
  | nil => rfl
  | cons m rest ih => exact ih _

/-- Of a chain whose first messages are writes only the last one can come back changed. -/
theorem answers_concat (slaves : Slaves) (before : List Message) (m : Message)
    (h : ∀ w ∈ before, w.isRead = false) :
    slaves.answers (before ++ [m]) = before ++ [(slaves.replay before).answer m] := by
  induction before generalizing slaves with
  | nil => rfl
  | cons first rest ih =>
    have hread := h first List.mem_cons_self
    obtain ⟨address, payload⟩ := first
    cases payload with
    | read buffer => cases hread
    | write bytes =>
      exact congrArg (Message.write address bytes :: ·)
        (ih _ fun w hw => h w (List.mem_cons_of_mem _ hw))

end Slaves
end TwoWire.Bench
