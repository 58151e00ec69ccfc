/-!
# Messages

A message is a read or a write at one address. A chain of messages is one transaction: its segments
are joined by repeated starts. A read carries the buffer that its bytes are stored into, and a call
hands the chain back with the buffers as they are then.
-/
namespace TwoWire

/-- The part of a message without its address: bytes to send, or a buffer to fill. -/
inductive Payload
  | write (bytes : List UInt8)
  | read (buffer : List UInt8)
  deriving DecidableEq

namespace Payload

def bytes : Payload → List UInt8
  | write bytes => bytes
  | read buffer => buffer

def isRead : Payload → Bool
  | write _ => false
  | read _ => true

/-- Put a received byte into a buffer. Bytes to send are never changed, and a position outside the
buffer is ignored. -/
def store : Payload → Nat → UInt8 → Payload
  | write bytes, _, _ => write bytes
  | read buffer, position, byte => read (buffer.set position byte)

@[simp] theorem length_store (p : Payload) (position : Nat) (byte : UInt8) :
    (p.store position byte).bytes.length = p.bytes.length := by
  cases p <;> simp [store, bytes]

@[simp] theorem isRead_store (p : Payload) (position : Nat) (byte : UInt8) :
    (p.store position byte).isRead = p.isRead := by
  cases p <;> rfl

end Payload

structure Message where
  address : UInt8
  payload : Payload
  deriving DecidableEq

namespace Message

def write (address : UInt8) (bytes : List UInt8) : Message := ⟨address, .write bytes⟩
def read (address : UInt8) (buffer : List UInt8) : Message := ⟨address, .read buffer⟩

def isRead (m : Message) : Bool := m.payload.isRead

/-- Bytes that the message moves after its address. -/
def length (m : Message) : Nat := m.payload.bytes.length

/-- The byte to send at a position; a read message has none. -/
def outgoing? (m : Message) (position : Nat) : Option UInt8 :=
  match m.payload with
  | .write bytes => bytes[position]?
  | .read _ => none

def store (m : Message) (position : Nat) (byte : UInt8) : Message :=
  ⟨m.address, m.payload.store position byte⟩

@[simp] theorem length_store (m : Message) (position : Nat) (byte : UInt8) :
    (m.store position byte).length = m.length := by
  simp [store, length]

/-- The buffer of a read message. -/
def buffer? (m : Message) : Option (List UInt8) :=
  match m.payload with
  | .write _ => none
  | .read buffer => some buffer

/-- Bytes that a chain moves: each message's address byte and its data. -/
def cost : List Message → Nat
  | [] => 0
  | m :: rest => 1 + m.length + cost rest

/-- The cost of a chain depends on the lengths of its messages only. -/
theorem cost_congr {chain other : List Message}
    (h : chain.map length = other.map length) : cost chain = cost other := by
  induction chain generalizing other with
  | nil => cases other <;> simp_all
  | cons m rest ih =>
    cases other with
    | nil => simp at h
    | cons m' rest' =>
      simp only [List.map_cons, List.cons.injEq] at h
      rw [cost, cost, h.1, ih h.2]

/-- The buffers of the read messages of a chain, in order. -/
def buffers (chain : List Message) : List (List UInt8) := chain.filterMap buffer?

/-- A chain that may go onto the bus: not empty, and every address within seven bits. -/
def Valid (chain : List Message) : Prop := chain ≠ [] ∧ ∀ m ∈ chain, m.address ≤ 0x7f

instance (chain : List Message) : Decidable (Valid chain) :=
  inferInstanceAs (Decidable (_ ∧ _))

end Message
end TwoWire
