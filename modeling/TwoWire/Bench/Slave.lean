import TwoWire.ByteTable
/-!
# Simulated slaves

A slave is a file of 256 registers behind a pointer that wraps around. The first byte of a write
sets the pointer; every other byte, written or read, moves it on by one.
-/
namespace TwoWire.Bench

/-- The kinds of slave that can be attached. -/
inductive Device
  /-- Registers that hold the listed values at first. -/
  | registers (initial : List (UInt8 × UInt8))
  /-- Never acknowledges its address. -/
  | deaf
  /-- Registers; during the first transaction it stops after `bytes` data bytes and holds SDA low
  until it is clocked once. -/
  | stallOnce (initial : List (UInt8 × UInt8)) (bytes : Nat)
  /-- Once it holds SDA it needs `pulses` clocks to let go. Nothing is ever added to them, so what
  holds of every number holds of those of any word. -/
  | stuck (pulses : Nat)

structure Slave where
  registers : ByteTable UInt8 := .fill 0
  pointer : UInt8 := 0
  acknowledges : Bool := true
  /-- Data bytes after which a pending stall sets in. -/
  stallAfter : Option Nat := none
  /-- Clocks that it needs to let go of SDA. -/
  holdPulses : Nat := 0
  deriving DecidableEq

namespace Slave

def ofDevice : Device → Slave
  | .registers initial => { registers := (ByteTable.fill 0).setAll initial }
  | .deaf => { acknowledges := false }
  | .stallOnce initial bytes =>
    { registers := (ByteTable.fill 0).setAll initial, stallAfter := some bytes }
  | .stuck pulses => { holdPulses := pulses }

/-- Set the pointer. -/
def aim (s : Slave) (register : UInt8) : Slave := { s with pointer := register }

/-- Store a byte at the pointer. -/
def store (s : Slave) (byte : UInt8) : Slave :=
  { s with registers := s.registers.set s.pointer byte, pointer := s.pointer + 1 }

/-- The byte at the pointer. -/
def current (s : Slave) : UInt8 := s.registers.get s.pointer

/-- Move the pointer on. -/
def advance (s : Slave) : Slave := { s with pointer := s.pointer + 1 }

/-- Forget a pending stall. -/
def calm (s : Slave) : Slave := { s with stallAfter := none }

end Slave
end TwoWire.Bench
