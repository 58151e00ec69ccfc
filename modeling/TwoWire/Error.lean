import TwoWire.Text.Term
/-!
# Errors of the bus

Why a bus operation fails, the sentence that says so, the class that generic device code sees, and
the structured text of each.
-/
namespace TwoWire
open Text

/-- A failure that the controller latches in its status word. -/
inductive Fault
  | busError
  | nack
  | arbitrationLost
  | invalidWrite
  /-- The generic failure field was not zero. -/
  | failed
  deriving DecidableEq

def Fault.name : Fault → String
  | busError => "BusError"
  | nack => "Nack"
  | arbitrationLost => "ArbitrationLost"
  | invalidWrite => "InvalidWrite"
  | failed => "Failed"

inductive Error
  /-- The driver is not installed, or the bus was stuck before a transfer and stayed so. -/
  | notReady
  /-- A status sample carried an error bit. -/
  | halted (fault : Fault)
  /-- The bus stayed active past the poll bound and could not be cleared. -/
  | busBusy
  | alreadyInstalled
  /-- An empty chain, an address wider than seven bits, or too many operations. -/
  | invalidChain
  /-- Fewer messages than requested went through. -/
  | incomplete (completed requested : Nat)
  /-- The controller's clock was refused. -/
  | noClock
  /-- The interrupt line could not be claimed. -/
  | noInterrupt
  deriving DecidableEq

/-- The classes of bus error that generic device code tells apart. -/
inductive ErrorKind
  | bus
  | arbitrationLoss
  | noAcknowledge
  | other
  deriving DecidableEq

def ErrorKind.term : ErrorKind → Term
  | bus => .word "Bus"
  | arbitrationLoss => .word "ArbitrationLoss"
  | noAcknowledge => .applied "NoAcknowledge" (.word "Unknown")
  | other => .word "Other"

namespace Error

/-- The fault behind an error, if it has one. -/
def fault? : Error → Option Fault
  | halted fault => some fault
  | _ => none

/-- The generic failure field says nothing more precise than `other`. -/
def kind : Error → ErrorKind
  | halted .nack => .noAcknowledge
  | halted .arbitrationLost => .arbitrationLoss
  | halted .busError => .bus
  | halted .invalidWrite => .bus
  | busBusy => .bus
  | _ => .other

/-- The structured text. -/
def term : Error → Term
  | notReady => .word "NotReady"
  | halted fault => .applied "TimedOut" (.applied "Fault" (.word fault.name))
  | busBusy => .applied "TimedOut" (.word "BusBusy")
  | alreadyInstalled => .word "AlreadyInstalled"
  | invalidChain => .word "Invalid"
  | incomplete completed requested =>
    .record "Incomplete" [("completed", completed), ("requested", requested)]
  | noClock => .word "Clock"
  | noInterrupt => .word "Interrupt"

/-- The sentence for a reader of the log. -/
def message : Error → String
  | notReady => "i2c bus not ready"
  | halted fault => "i2c transfer timed out (" ++ fault.name ++ ")"
  | busBusy => "i2c bus stayed busy"
  | alreadyInstalled => "i2c driver already installed"
  | invalidChain => "invalid i2c message chain"
  | incomplete completed requested =>
    "i2c transfer incomplete (" ++ toString completed ++ "/" ++ toString requested ++ ")"
  | noClock => "i2c clock unavailable"
  | noInterrupt => "i2c interrupt unavailable"

instance decidableEqResult {α : Type} [DecidableEq α] : DecidableEq (Except Error α)
  | .ok a, .ok b => decidable_of_iff (a = b) (by simp)
  | .error e, .error f => decidable_of_iff (e = f) (by simp)
  | .ok _, .error _ => isFalse nofun
  | .error _, .ok _ => isFalse nofun

end Error
end TwoWire
