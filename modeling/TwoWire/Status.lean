import TwoWire.Error
/-!
# The status word

Reading the status register samples the controller: the state of its two buffers, the state of the
bus, and the error bits latched since the last sample. Unknown bits are retained.
-/
namespace TwoWire

structure Status where
  word : UInt32
  deriving DecidableEq

namespace Status

inductive Flag
  /-- The write buffer takes nothing now. -/
  | writeFull
  /-- The read buffer holds a byte. -/
  | readFull
  | busError
  /-- A byte was not acknowledged. -/
  | nacked
  | arbitrationLost
  | invalidWrite
  /-- The generic failure field, two bits wide. -/
  | failed
  | busActive
  /-- The active transaction is ours. -/
  | busMaster
  deriving DecidableEq

def Flag.mask : Flag → UInt32
  | writeFull => 0x001
  | readFull => 0x002
  | busError => 0x004
  | nacked => 0x008
  | arbitrationLost => 0x010
  | invalidWrite => 0x020
  | failed => 0x0c0
  | busActive => 0x100
  | busMaster => 0x200

/-- Every bit that reports a fault. -/
def errorMask : UInt32 := 0x0fc

/-- All bits of the flag are set. -/
def has (s : Status) (flag : Flag) : Bool := s.word &&& flag.mask == flag.mask

/-- Some bit of the mask is set. -/
def meets (s : Status) (mask : UInt32) : Bool := s.word &&& mask != 0

def isBusy (s : Status) : Bool := s.has .busActive

/-- The most specific fault of a sample. -/
def fault? (s : Status) : Option Fault :=
  if s.meets errorMask then
    if s.has .nacked then some .nack
    else if s.has .arbitrationLost then some .arbitrationLost
    else if s.has .busError then some .busError
    else if s.has .invalidWrite then some .invalidWrite
    else some .failed
  else none

/-- A sample reports a fault exactly if one of its error bits is set. -/
theorem fault?_isSome (s : Status) : s.fault?.isSome = s.meets errorMask := by
  unfold fault?
  repeat' split
  all_goals simp_all

end Status
end TwoWire
