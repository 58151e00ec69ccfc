import TwoWire.Master
import TwoWire.Text.Digits
/-!
# Gateways

A gateway is how generic device code uses a bus: four operations at an address. Each failure is
reported once, on the gateway's own channel.
-/
namespace TwoWire

structure Gateway where
  master : Master
  logger : Logger

namespace Gateway

/-- Report a failed operation and hand its answer on. -/
def report (g : Gateway) (operation : String) (address : UInt8) (answer : Answer Unit) :
    Program (Answer Unit) :=
  match answer.result with
  | .ok () => pure answer
  | .error error => do
    g.logger.error
      ([operation, " "] ++ Text.hexByte address ++ [": "] ++ error.term.pieces)
    pure answer

/-- A read alone, from wherever the device stands. It is tried once. -/
def read (g : Gateway) (address : UInt8) (buffer : List UInt8) : Program (Answer Unit) := do
  let answer ← g.master.perform address [.read buffer]
  g.report "read" address answer

def write (g : Gateway) (address : UInt8) (bytes : List UInt8) : Program (Answer Unit) := do
  let answer ← g.master.write address bytes
  g.report "write" address answer

def writeRead (g : Gateway) (address : UInt8) (bytes buffer : List UInt8) :
    Program (Answer Unit) := do
  let answer ← g.master.writeRead address bytes buffer
  g.report "write_read" address answer

def transaction (g : Gateway) (address : UInt8) (operations : List Payload) :
    Program (Answer Unit) := do
  let answer ← g.master.perform address operations
  g.report "transaction" address answer

end Gateway
end TwoWire
