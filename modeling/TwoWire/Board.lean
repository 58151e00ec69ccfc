import TwoWire.BusConfig
/-!
# The board

Where the bus and its devices sit on the Leo board.
-/
namespace TwoWire.Board

def base : UInt64 := 0xA9900000
def clock : UInt32 := 17
def line : UInt32 := 11
def scl : UInt32 := 95
def sda : UInt32 := 96

/-- Address of the battery gauge. -/
def gaugeAddress : UInt8 := 0x26

/-- Address of the companion microcontroller. -/
def companionAddress : UInt8 := 0x66

/-- The battery's sense resistor, in milliohms. -/
def senseMilliohms : UInt32 := 15

/-- Configuration of the board's only bus. -/
def busConfig : BusConfig where
  base := base
  clock := clock
  line := line
  scl := scl
  sda := sda
  busRate := Speed.fast.rate

end TwoWire.Board
