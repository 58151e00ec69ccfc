import TwoWire.Board
import TwoWire.Board.DeviceError
import TwoWire.Master
/-!
# The companion microcontroller

The MicroP drives the keypad light, the notification light, the light sensor and a bank of pins. It
speaks in commands: a write is a command byte with a payload, a read writes the command byte and
fetches the response after a repeated start. Numbers of two bytes are big-endian.
-/
namespace TwoWire.Board

structure Companion where
  logger : Logger
  /-- The firmware version that the last successful probe read. -/
  version : Option UInt8 := none

namespace Companion
open Program Text

/-- Longest block of one write, the command byte included. -/
def blockSize : Nat := 21

/-- Longest payload of one write. -/
def maxPayload : Nat := blockSize - 1

/-- The commands, by their bytes. -/
inductive Command
  | readPins
  | writeLedLevels
  | readVersion
  | enablePins
  | disablePins
  | writeLedColour
  | requestConversion
  | readConversion
  | enableInterrupts
  | disableInterrupts
  | readInterrupts
  deriving DecidableEq

def Command.byte : Command → UInt8
  | readPins => 0x10
  | writeLedLevels => 0x25
  | readVersion => 0x30
  | enablePins => 0x40
  | disablePins => 0x41
  | writeLedColour => 0x51
  | requestConversion => 0x60
  | readConversion => 0x62
  | enableInterrupts => 0x80
  | disableInterrupts => 0x81
  | readInterrupts => 0x82

/-- Colours of the notification light. -/
inductive Light
  | off
  | green
  | amber
  deriving DecidableEq

/-- The block that sets the light: the enables of both colours, then the standing configuration. -/
def Light.block : Light → List UInt8
  | off => [0x00, 0x00, 0x00, 0xFF, 0x00, 0x00, 0x00]
  | green => [0x01, 0x00, 0x00, 0xFF, 0x00, 0x00, 0x00]
  | amber => [0x00, 0x04, 0x00, 0xFF, 0x00, 0x00, 0x00]

/-- The two bytes of a number. -/
def pair (n : UInt16) : List UInt8 := [(n >>> 8).toUInt8, n.toUInt8]

/-- The number in the first two bytes. -/
def ofPair (bytes : List UInt8) : UInt16 :=
  let high : UInt8 := bytes[0]?.getD 0
  let low : UInt8 := bytes[1]?.getD 0
  (high.toUInt16 <<< 8) ||| low.toUInt16

/-- Fade time sent with each brightness. -/
def keypadFade : UInt8 := 5

/-- The channels of the keypad light. -/
def keypadChannels : UInt16 := 0x0004

/-- The request for a conversion of the light sensor. -/
def lightSensorRequest : List UInt8 := [0x00, 0x01]

/-! ## Commands -/

/-- Send a command with a payload. A payload that does not fit makes no access at all. -/
def writeRegister (m : Master) (command : UInt8) (payload : List UInt8) :
    Program (Except DeviceError Unit) :=
  if maxPayload < payload.length then pure (.error (.payloadTooLarge payload.length))
  else do
    let answer ← m.write companionAddress (command :: payload)
    pure (answer.result.mapError .bus)

/-- Send a command and read its response into `buffer`. The buffer is handed back also when the read
failed. -/
def readRegister (m : Master) (command : UInt8) (buffer : List UInt8) :
    Program (Except DeviceError Unit × List UInt8) := do
  let answer ← m.read companionAddress command buffer
  pure (answer.result.mapError .bus, answer.buffer)

/-- Read a number. -/
def readNumber (m : Master) (command : Command) : Program (Except DeviceError UInt16) := do
  let response ← readRegister m command.byte [0, 0]
  pure (response.1.map fun () => ofPair response.2)

/-- Send a mask of pins or interrupts, and report a failure. -/
def writeMask (c : Companion) (m : Master) (command : Command) (mask : UInt16) :
    Program (Except DeviceError Unit) := do
  let result ← writeRegister m command.byte (pair mask)
  match result with
  | .ok () => pure (.ok ())
  | .error error => do
    c.logger.error (["cmd "] ++ hexByte command.byte ++ [" mask "] ++ hexPair mask ++
      [" failed: "] ++ error.term.pieces)
    pure (.error error)

/-! ## Operations -/

/-- Read the firmware version, to see whether the device answers. -/
def probe (c : Companion) (m : Master) : Program (Except DeviceError UInt8 × Companion) := do
  let response ← readRegister m Command.readVersion.byte [0, 0]
  match response.1 with
  | .ok () => do
    let version := response.2.headD 0
    c.logger.debug ("HTC MicroP " :: hexByte version)
    pure (.ok version, { c with version := some version })
  | .error error => do
    c.logger.error ("microp get version failed: " :: error.term.pieces)
    pure (.error error, { c with version := none })

def setLight (m : Master) (light : Light) : Program (Except DeviceError Unit) :=
  writeRegister m Command.writeLedColour.byte light.block

def setKeypadBrightness (m : Master) (brightness : UInt8) : Program (Except DeviceError Unit) :=
  writeRegister m Command.writeLedLevels.byte
    ([keypadFade, brightness] ++ pair keypadChannels)

/-- Ask for a conversion of the light sensor and read it. -/
def readLightSensor (c : Companion) (m : Master) : Program (Except DeviceError UInt16) := do
  let requested ← writeRegister m Command.requestConversion.byte lightSensorRequest
  match requested with
  | .ok () => readNumber m .readConversion
  | .error error => do
    c.logger.error ("request adc failed: " :: error.term.pieces)
    pure (.error error)

/-- The levels of the pins. -/
def pinLevels (m : Master) : Program (Except DeviceError UInt16) := readNumber m .readPins

def enablePins (c : Companion) (m : Master) (mask : UInt16) : Program (Except DeviceError Unit) :=
  c.writeMask m .enablePins mask

def disablePins (c : Companion) (m : Master) (mask : UInt16) : Program (Except DeviceError Unit) :=
  c.writeMask m .disablePins mask

def enableInterrupts (c : Companion) (m : Master) (mask : UInt16) :
    Program (Except DeviceError Unit) :=
  c.writeMask m .enableInterrupts mask

def disableInterrupts (c : Companion) (m : Master) (mask : UInt16) :
    Program (Except DeviceError Unit) :=
  c.writeMask m .disableInterrupts mask

/-- The pending interrupts of the pins. -/
def pendingInterrupts (m : Master) : Program (Except DeviceError UInt16) :=
  readNumber m .readInterrupts

end Companion
end TwoWire.Board
