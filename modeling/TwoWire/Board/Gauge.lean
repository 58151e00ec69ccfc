import TwoWire.Board
import TwoWire.Board.DeviceError
import TwoWire.Master
/-!
# The battery gauge

A DS2746 gauge measures voltage, current and temperature. Each measurement is a big-endian pair of
registers that holds a left-justified count, and each register is read in a transaction of its own.
-/
namespace TwoWire.Board

structure Gauge where
  address : UInt8 := gaugeAddress

namespace Gauge
open Program

/-- The register pairs by their first register; the second one follows it. -/
def temperatureRegister : UInt8 := 0x0A
def voltageRegister : UInt8 := 0x0C
def currentRegister : UInt8 := 0x0E

/-- A pair of bytes as one word, the high byte first. -/
def pair (high low : UInt8) : UInt16 := high.toUInt16 <<< 8 ||| low.toUInt16

/-- A voltage count is twelve bits of 2.44 mV. -/
def millivolts (high low : UInt8) : Nat :=
  ((pair high low >>> 4).toUInt32 * 2440 / 1000).toNat

/-- A resistance as a signed number; beyond the range of such numbers it counts as their last one. -/
def resistance (senseMilliohms : UInt32) : Int32 :=
  if senseMilliohms ≤ Int32.maxValue.toUInt32 then senseMilliohms.toInt32 else Int32.maxValue

/-- A current count is fourteen signed bits of 0.645 mV across the sense resistor, rounded toward
zero. -/
def milliamperes (senseMilliohms : UInt32) (high low : UInt8) : Int :=
  (((pair high low).toInt16 >>> 2).toInt32 * 645 / resistance senseMilliohms).toInt

/-- A temperature count is eleven signed bits of 0.125 degrees Celsius. -/
def millidegrees (high low : UInt8) : Int := (((pair high low).toInt16 >>> 5).toInt32 * 125).toInt

/-- Read one register. -/
def readRegister (g : Gauge) (m : Master) (register : UInt8) :
    Program (Except DeviceError UInt8) := do
  let answer ← m.read g.address register [0]
  match answer.result with
  | .ok () => pure (.ok (answer.buffer.headD 0))
  | .error error => pure (.error (.bus error))

/-- Read a register pair and convert it. The second register is read only after the first one. -/
def measure {α : Type} (g : Gauge) (m : Master) (register : UInt8)
    (convert : UInt8 → UInt8 → α) : Program (Except DeviceError α) := do
  let high ← g.readRegister m register
  match high with
  | .error error => pure (.error error)
  | .ok high => do
    let low ← g.readRegister m (register + 1)
    pure (low.map (convert high))

/-- Battery voltage in millivolts. -/
def voltage (g : Gauge) (m : Master) : Program (Except DeviceError Nat) :=
  g.measure m voltageRegister millivolts

/-- Battery current in milliamperes, negative while discharging. -/
def current (g : Gauge) (m : Master) (senseMilliohms : UInt32) :
    Program (Except DeviceError Int) :=
  g.measure m currentRegister (milliamperes senseMilliohms)

/-- Temperature in millidegrees Celsius. -/
def temperature (g : Gauge) (m : Master) : Program (Except DeviceError Int) :=
  g.measure m temperatureRegister millidegrees

end Gauge
end TwoWire.Board
