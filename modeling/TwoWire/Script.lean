import TwoWire.Access
/-!
# Scripted hardware

A script fixes the answers of the board in advance. Each kind of answer is handed out from a tape of
its own, in order, and the last answer of a tape is repeated for ever. Writes have no effect, except
that the clock control register holds what was written.
-/
namespace TwoWire

/-- Answers in order, each with the number of times that it is given. -/
structure Tape (α : Type) where
  runs : List (α × Nat)

namespace Tape

variable {α : Type}

def blank : Tape α := ⟨[]⟩

/-- A tape from counted answers; those that are counted zero times are left out. -/
def ofRuns (runs : List (α × Nat)) : Tape α := ⟨runs.filter fun run => run.2 ≠ 0⟩

/-- The next answer; a blank tape gives `default` for ever. -/
def next (t : Tape α) (default : α) : α × Tape α :=
  match t.runs with
  | [] => (default, t)
  | [(a, _)] => (a, t)
  | (a, count) :: rest => if count ≤ 1 then (a, ⟨rest⟩) else (a, ⟨(a, count - 1) :: rest⟩)

end Tape

structure Script where
  status : Tape UInt32 := .blank
  received : Tape UInt32 := .blank
  pads : Tape UInt32 := .blank
  pending : Tape Bool := .blank
  pins : List (UInt32 × Tape Bool) := []
  /-- Whether the clock is granted. -/
  grants : Tape Bool := .blank
  claims : Tape (Except ClaimError Unit) := .blank
  clockControl : UInt32 := 0

namespace Script

/-- The level of a pin; one without a tape is high. -/
def readPin (s : Script) (pin : UInt32) : Bool × Script :=
  match s.pins.findIdx? fun entry => entry.1 = pin with
  | none => (true, s)
  | some i =>
    match s.pins[i]? with
    | none => (true, s)
    | some (_, tape) =>
      let answer := tape.next true
      (answer.1, { s with pins := s.pins.set i (pin, answer.2) })

def readRegister (s : Script) : Register → UInt32 × Script
  | .writeData => (0, s)
  | .clockControl => (s.clockControl, s)
  | .status => let answer := s.status.next 0; (answer.1, { s with status := answer.2 })
  | .readData => let answer := s.received.next 238; (answer.1, { s with received := answer.2 })
  | .interfaceSelect => let answer := s.pads.next 768; (answer.1, { s with pads := answer.2 })

/-- The board that follows a script. -/
def respond : Hardware Script
  | .readRegister register, s => s.readRegister register
  | .writeRegister .clockControl word, s => ((), { s with clockControl := word })
  | .writeRegister _ _, s => ((), s)
  | .enableClock _, s => let answer := s.grants.next true; (answer.1, { s with grants := answer.2 })
  | .disableClock _, s => ((), s)
  | .claimLine _, s =>
    let answer := s.claims.next (.ok ())
    (answer.1, { s with claims := answer.2 })
  | .releaseLine _, s => ((), s)
  | .unmaskLine _, s => ((), s)
  | .maskLine _, s => ((), s)
  | .takePending _, s =>
    let answer := s.pending.next false
    (answer.1, { s with pending := answer.2 })
  | .readPin pin, s => s.readPin pin
  | .drivePin _ _, s => ((), s)
  | .turnPin _ _, s => ((), s)
  | .routePads _, s => ((), s)
  | .delay _, s => ((), s)

end Script
end TwoWire
