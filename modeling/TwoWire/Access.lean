/-!
# Hardware accesses

Everything that bus software may ask of the board: the five registers of the controller, its gated
clock, its interrupt line, the two pads as plain pins, the pad multiplexer and the passing of time.
Each kind of access has its own type of reply, so an event of a trace carries exactly the answer
that its access can have.
-/
namespace TwoWire

/-- The words of the controller's register window. -/
inductive Register
  | writeData
  | clockControl
  | status
  | readData
  | interfaceSelect
  deriving DecidableEq

/-- Distance of a register from the base of the window, in bytes. -/
def Register.offset : Register → Nat
  | .writeData => 0x00
  | .clockControl => 0x04
  | .status => 0x08
  | .readData => 0x0c
  | .interfaceSelect => 0x10

/-- An input releases its line; an output drives it. -/
inductive Direction
  | input
  | output
  deriving DecidableEq

/-- Why an interrupt line cannot be claimed. -/
inductive ClaimError
  | alreadyClaimed
  | noSuchLine
  deriving DecidableEq

/-- One access to the board. -/
inductive Access
  | readRegister (register : Register)
  | writeRegister (register : Register) (word : UInt32)
  | enableClock (clock : UInt32)
  | disableClock (clock : UInt32)
  | claimLine (line : UInt32)
  | releaseLine (line : UInt32)
  | unmaskLine (line : UInt32)
  | maskLine (line : UInt32)
  | takePending (line : UInt32)
  | readPin (pin : UInt32)
  | drivePin (pin : UInt32) (high : Bool)
  | turnPin (pin : UInt32) (direction : Direction)
  /-- Hand both pads to the bus controller, or to plain pin control. -/
  | routePads (toBus : Bool)
  | delay (nanoseconds : UInt32)
  deriving DecidableEq

namespace Access

/-- The type of the board's answer. A clock is granted or refused. -/
abbrev Reply : Access → Type
  | readRegister _ => UInt32
  | enableClock _ => Bool
  | claimLine _ => Except ClaimError Unit
  | takePending _ => Bool
  | readPin _ => Bool
  | writeRegister _ _ => Unit
  | disableClock _ => Unit
  | releaseLine _ => Unit
  | unmaskLine _ => Unit
  | maskLine _ => Unit
  | drivePin _ _ => Unit
  | turnPin _ _ => Unit
  | routePads _ => Unit
  | delay _ => Unit

/-- The accesses to the register window. -/
def isRegisterAccess : Access → Bool
  | readRegister _ => true
  | writeRegister _ _ => true
  | _ => false

end Access

/-- An access together with the answer that it got. -/
structure Event where
  access : Access
  reply : access.Reply

/-- A behaviour of the board: for each access, an answer and the next state. -/
abbrev Hardware (σ : Type) := (access : Access) → σ → access.Reply × σ

end TwoWire
