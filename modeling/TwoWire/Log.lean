/-!
# The log

A log entry is one line on one channel. A component reports through its logger, which either drops
everything or puts it onto the component's channel.
-/
namespace TwoWire

inductive Level
  | debug
  | error
  deriving DecidableEq

/-- Who reports: the bus itself, a gateway through which devices use it, or the companion chip's
client. -/
inductive Channel
  | bus
  | gateway
  | companion
  deriving DecidableEq

structure LogEntry where
  channel : Channel
  level : Level
  text : String
  deriving DecidableEq

inductive Logger
  | silent
  | onto (channel : Channel)
  deriving DecidableEq

end TwoWire
