import TwoWire.Error
/-!
# Errors of the device clients
-/
namespace TwoWire.Board
open Text

inductive DeviceError
  | bus (error : Error)
  /-- A payload of `length` bytes does not fit into one block of the device. -/
  | payloadTooLarge (length : Nat)
  deriving DecidableEq

namespace DeviceError

/-- The structured text. -/
def term : DeviceError → Term
  | bus error => .applied "Bus" error.term
  | payloadTooLarge length => .record "PayloadTooLarge" [("len", length)]

/-- The sentence for a reader of the log. -/
def message : DeviceError → String
  | bus error => "bus error: " ++ error.term.text
  | payloadTooLarge length => "payload of " ++ toString length ++ " bytes too large"

end DeviceError
end TwoWire.Board
