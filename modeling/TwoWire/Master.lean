import TwoWire.Session
/-!
# The bus master

The calls that devices use. A master that is not installed refuses every transfer, and an invalid
chain is refused by every master; neither makes any access. Writes and reads are tried again after a
failure; chains and transactions of several operations are tried once.
-/
namespace TwoWire

structure Master where
  bus : Bus
  installed : Bool := false
  deriving DecidableEq

namespace Answer

/-- The verdict of an attempt that had to get `requested` messages through. -/
def verdict (requested : Nat) : Except Error Nat → Except Error Unit
  | .ok completed =>
    if completed = requested then .ok () else .error (.incomplete completed requested)
  | .error error => .error error

/-- The first buffer of the chain. -/
def buffer {α : Type} (a : Answer α) : List UInt8 := (Message.buffers a.chain).headD []

end Answer

namespace Master
open Program

/-- Extra attempts of a write after the first one. -/
def writeRetries : Nat := 10

/-- Extra attempts of a read after the first one. -/
def readRetries : Nat := 10

/-- Pause before another attempt. -/
def retryMicros : UInt32 := 10

/-- Operations that one transaction at a single address can have. -/
def maxOperations : Nat := 8

/-! ## Installing -/

/-- Program the divider and claim the interrupt line. Only a master that is not yet installed does
anything. -/
def install (m : Master) : Program (Except Error Unit × Master) :=
  if m.installed then do
    m.bus.logger.error ["already installed"]
    pure (.error .alreadyInstalled, m)
  else do
    let config := m.bus.config
    maskLine config.line
    routePads true
    let granted ← enableClock config.clock
    if granted then do
      Controller.setClockControl config.clockControl
      m.bus.logger.debug (["probe: clk_ctl "] ++ Text.hex config.clockControl.toNat ++
        [", ", toString config.programmedRate, " Hz"])
      disableClock config.clock
      let claimed ← claimLine config.line
      match claimed with
      | .ok () => pure (.ok (), { m with installed := true })
      | .error _ => pure (.error .noInterrupt, m)
    else pure (.error .noClock, m)

/-- Give everything back. A master that is not installed does nothing. -/
def uninstall (m : Master) : Program Master :=
  if m.installed then do
    maskLine m.bus.config.line
    disableClock m.bus.config.clock
    releaseLine m.bus.config.line
    routePads false
    pure { m with installed := false }
  else pure m

def reportNotInstalled (m : Master) : Program Unit :=
  m.bus.logger.error ["called when driver is not installed"]

/-! ## Transfers -/

/-- Run a chain as one transaction, once. The result counts the messages that went through in full;
it is less than the chain's length if the bus stalled and was cleared in the middle. -/
def transact (m : Master) (chain : List Message) : Program (Answer Nat) :=
  if m.installed then
    if Message.Valid chain then
      Session.hold m.bus ⟨.error .noClock, chain⟩ (Session.transact m.bus chain)
    else pure ⟨.error .invalidChain, chain⟩
  else do
    m.reportNotInstalled
    pure ⟨.error .notReady, chain⟩

/-- Up to `left + 1` attempts out of `retries + 1`. An invalid chain is not tried again. -/
def persist (m : Master) (retries : Nat) : (left : Nat) → List Message → Program (Answer Unit)
  | left, chain => do
    let attempt ← m.transact chain
    match Answer.verdict chain.length attempt.result with
    | .ok () => pure ⟨.ok (), attempt.chain⟩
    | .error .invalidChain => pure ⟨.error .invalidChain, attempt.chain⟩
    | .error error =>
      match left with
      | 0 => do
        m.bus.logger.error
          ["giving up after ", toString (retries + 1), " attempts: ", error.message]
        pure ⟨.error error, attempt.chain⟩
      | left + 1 => do
        delayMicros retryMicros
        m.bus.logger.debug ["retry ", toString (retries - left), " after: ", error.message]
        m.persist retries left attempt.chain

/-- Attempts until every message of the chain goes through. -/
def transactRetrying (m : Master) (retries : Nat) (chain : List Message) :
    Program (Answer Unit) :=
  if m.installed then m.persist retries retries chain
  else do
    m.reportNotInstalled
    pure ⟨.error .notReady, chain⟩

def write (m : Master) (address : UInt8) (bytes : List UInt8) : Program (Answer Unit) :=
  m.transactRetrying writeRetries [.write address bytes]

/-- Write `bytes`, then read into `buffer` after a repeated start. -/
def writeRead (m : Master) (address : UInt8) (bytes buffer : List UInt8) :
    Program (Answer Unit) :=
  m.transactRetrying readRetries [.write address bytes, .read address buffer]

/-- Read consecutive registers, from `register` on. -/
def read (m : Master) (address register : UInt8) (buffer : List UInt8) : Program (Answer Unit) :=
  m.writeRead address [register] buffer

/-- Run operations at one address as one transaction. No operations succeed without any access. -/
def perform (m : Master) (address : UInt8) (operations : List Payload) : Program (Answer Unit) :=
  let chain := operations.map (Message.mk address)
  if operations.isEmpty then pure ⟨.ok (), chain⟩
  else if maxOperations < operations.length then pure ⟨.error .invalidChain, chain⟩
  else do
    let attempt ← m.transact chain
    pure ⟨Answer.verdict chain.length attempt.result, attempt.chain⟩

/-- Free a bus that a slave keeps active. -/
def recover (m : Master) : Program (Except Error Unit) :=
  if m.installed then Session.hold m.bus (.error .noClock) (Session.clear m.bus)
  else do
    m.reportNotInstalled
    pure (.error .notReady)

/-- The bus rate that the programmed divider produces, in hertz. -/
def busRate (m : Master) : UInt32 := m.bus.config.programmedRate

end Master
end TwoWire
