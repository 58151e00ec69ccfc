/-!
# Configuration of a bus

Where the controller sits, which clock, interrupt line and pads belong to it, and the rates from
which its divider is computed.
-/
namespace TwoWire

/-- Rates that the bus supports. -/
inductive Speed
  | standard
  | fast
  deriving DecidableEq

/-- Bus rate in hertz. -/
def Speed.rate : Speed → UInt32
  | standard => 100000
  | fast => 400000

structure BusConfig where
  base : UInt64
  clock : UInt32
  line : UInt32
  scl : UInt32 := 0
  sda : UInt32 := 0
  /-- The wanted bus rate, in hertz. -/
  busRate : UInt32 := Speed.standard.rate
  /-- The rate of the clock that feeds the controller, in hertz. -/
  sourceRate : UInt32 := 19200000
  deriving DecidableEq

namespace BusConfig

/-- A wanted rate outside 100 kHz to 400 kHz falls back to 100 kHz. -/
def effectiveRate (c : BusConfig) : UInt32 :=
  if Speed.standard.rate ≤ c.busRate ∧ c.busRate ≤ Speed.fast.rate then c.busRate
  else Speed.standard.rate

/-- The divider of the source clock, before it is cut to its eight bits. -/
def divider (c : BusConfig) : UInt32 :=
  let half := c.sourceRate / c.effectiveRate / 2
  if half ≤ 3 then 0 else half - 3

/-- The clock control word: a high-speed divider of three above the divider's low eight bits. -/
def clockControl (c : BusConfig) : UInt32 := 0x300 ||| (c.divider &&& 0xff)

/-- The bus rate that a clock control word produces. -/
def resultingRate (c : BusConfig) (control : UInt32) : UInt32 :=
  c.sourceRate / (2 * ((control &&& 0xff) + 3))

/-- The bus rate that the programmed divider produces. -/
def programmedRate (c : BusConfig) : UInt32 := c.resultingRate c.clockControl

end BusConfig
end TwoWire
