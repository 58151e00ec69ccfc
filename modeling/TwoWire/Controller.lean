import TwoWire.Program
import TwoWire.Status
/-!
# The controller

The controller is driven through two byte queues. A word of the write queue is an address byte, a
data byte or a bare stop request; the byte sits in the low eight bits, and control bits above it
mark an address and the last byte before the stop condition.
-/
namespace TwoWire

/-- A word of the write queue. -/
inductive FifoWord
  | address (target : UInt8) (reading : Bool) (last : Bool)
  | data (byte : UInt8) (last : Bool)
  | stop
  deriving DecidableEq

namespace FifoWord

/-- An address as it goes onto the wire: shifted left, with the direction in bit 0. -/
def wireAddress (target : UInt8) (reading : Bool) : UInt32 :=
  (target.toUInt32 <<< 1) ||| (if reading then 1 else 0)

/-- Marks an address byte. -/
def addressBit : UInt32 := 0x100

/-- Marks the last byte before the stop condition. -/
def lastBit : UInt32 := 0x200

/-- The word as it is written. -/
def bits : FifoWord → UInt32
  | address target reading last =>
    addressBit ||| wireAddress target reading ||| (if last then lastBit else 0)
  | data byte last => byte.toUInt32 ||| (if last then lastBit else 0)
  | stop => lastBit

end FifoWord

/-- The levels of the two pads; `true` is high. -/
structure PadLevels where
  scl : Bool
  sda : Bool
  deriving DecidableEq

namespace Controller
open Program

/-- Take a status sample. Error bits are cleared by the reading. -/
def sample : Program Status := do
  let word ← readRegister .status
  pure ⟨word⟩

/-- The pads as the controller sees them. -/
def padLevels : Program PadLevels := do
  let word ← readRegister .interfaceSelect
  pure ⟨word &&& 0x100 != 0, word &&& 0x200 != 0⟩

def push (word : UInt32) : Program Unit := writeRegister .writeData word

/-- Write a word outside the window in which SCL is low: written there at once, it could make the
controller release SCL too soon after pulling SDA low. -/
def pushPaced (word : UInt32) : Program Unit := do
  let pads ← padLevels
  if pads.scl then push word
  else do
    delay 6
    push word

/-- Ask for the stop condition, if it is due. -/
def stopIf (due : Bool) : Program Unit := if due then push FifoWord.stop.bits else pure ()

/-- Take the byte of the read queue. -/
def pull : Program UInt8 := do
  let word ← readRegister .readData
  pure word.toUInt8

def setClockControl (word : UInt32) : Program Unit := writeRegister .clockControl word

def clockControl : Program UInt32 := readRegister .clockControl

end Controller
end TwoWire
