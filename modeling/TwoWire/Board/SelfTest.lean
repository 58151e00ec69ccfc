import TwoWire.Board.Companion
import TwoWire.Board.Gauge
import TwoWire.Sink
/-!
# The self test

Four checks of the bus and the devices on it, reported line by line into a sink. A check that fails
is part of the report; a sink that refuses a write ends the test at once.
-/
namespace TwoWire.Board.SelfTest
open Text

structure Summary where
  passed : Nat := 0
  failed : Nat := 0
  deriving DecidableEq

def Summary.allPassed (s : Summary) : Bool := s.failed = 0

/-- What a check found: a value, by the pieces of its text, or the structured text of its error. -/
abbrev Finding := Except Term (List String)

/-- Count a finding. -/
def Summary.add (s : Summary) : Finding → Summary
  | .ok _ => { s with passed := s.passed + 1 }
  | .error _ => { s with failed := s.failed + 1 }

/-- The line that reports a finding. -/
def line (name : String) : Finding → List String
  | .ok value => [name, ": PASSED ("] ++ value ++ [")\r\n"]
  | .error error => [name, ": FAILED "] ++ error.pieces ++ ["\r\n"]

def header : List String := ["\r\n=== I2C Tests ===\r\n"]

def footer (s : Summary) : List String :=
  ["=== ", toString s.passed, " passed, ", toString s.failed, " failed ===\r\n"]

/-! ## The checks -/

/-- One check: its name, and how it finds out. -/
structure Check where
  name : String
  find : Master → Program Finding

/-- Voltages that a single cell can have, in millivolts. -/
def isPlausible (millivolts : Nat) : Bool := 2500 ≤ millivolts ∧ millivolts ≤ 4500

def busRecovery : Check where
  name := "Bus recovery"
  find m := do
    let result ← m.recover
    pure (match result with
      | .ok () => .ok ["idle"]
      | .error error => .error error.term)

def companionVersion : Check where
  name := "MicroP version"
  find m := do
    let probed ← Companion.probe { logger := .silent } m
    pure (match probed.1 with
      | .ok version => .ok (hexByte version)
      | .error error => .error error.term)

def gaugeVoltage : Check where
  name := "Gauge voltage (mV)"
  find m := do
    let result ← Gauge.voltage {} m
    pure (match result with
      | .ok millivolts =>
        if isPlausible millivolts then .ok [toString millivolts]
        else .error (.applied "OutOfRange" (.number millivolts))
      | .error error => .error (.applied "Device" error.term))

def gaugeCurrent : Check where
  name := "Gauge current (mA)"
  find m := do
    let result ← Gauge.current {} m senseMilliohms
    pure (match result with
      | .ok milliamperes => .ok (signed milliamperes)
      | .error error => .error error.term)

def checks : List Check := [busRecovery, companionVersion, gaugeVoltage, gaugeCurrent]

/-! ## The report -/

/-- Run the checks in order, with a line for each. A refusing sink yields no summary. -/
def runChecks (m : Master) : List Check → Summary → Sink → Program (Option Summary × Sink)
  | [], summary, sink => pure (some summary, sink)
  | check :: rest, summary, sink => do
    let finding ← check.find m
    let written := sink.writePieces (line check.name finding)
    if written.1 then runChecks m rest (summary.add finding) written.2
    else pure (none, written.2)

/-- The whole test. -/
def run (m : Master) (sink : Sink) : Program (Option Summary × Sink) :=
  let headed := sink.writePieces header
  if headed.1 then do
    let reported ← runChecks m checks {} headed.2
    match reported.1 with
    | none => pure (none, reported.2)
    | some summary =>
      let closed := reported.2.writePieces (footer summary)
      pure (if closed.1 then some summary else none, closed.2)
  else pure (none, headed.2)

end TwoWire.Board.SelfTest
