import TwoWire.Log
import TwoWire.Sink
/-!
# Consoles

A console writes each message as one tagged line to a byte sink. A sink that fails has nobody to
report to, so its failures are dropped and the parts that follow are still written.
-/
namespace TwoWire

structure Console where
  sink : Sink
  tag : String
  /-- A console that is not verbose writes errors only. -/
  verbose : Bool

namespace Console

/-- The text that marks a level. -/
def mark : Level → String
  | .debug => ""
  | .error => "error: "

/-- The parts of a line, each written on its own. -/
def parts (c : Console) (level : Level) (text : String) : List String :=
  ["[", c.tag, "] ", mark level, text, "\r\n"]

def emit (c : Console) (level : Level) (text : String) : Console :=
  { c with
    sink := (c.parts level text).foldl (fun sink part => (sink.writeAll part.toUTF8.toList).2)
      c.sink }

def log (c : Console) (level : Level) (text : String) : Console :=
  if level = .debug ∧ !c.verbose then c else c.emit level text

end Console
end TwoWire
