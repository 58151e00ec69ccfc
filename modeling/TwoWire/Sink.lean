/-!
# Byte sinks

A sink takes bytes write by write. It may take fewer than offered, has room for a limited number,
and refuses some writes outright. A writer repeats a write until everything is taken or one is
refused.
-/
namespace TwoWire

structure Sink where
  /-- Bytes that fit in all; none means no limit. -/
  capacity : Option Nat := none
  /-- Bytes taken by one write; none means no limit. -/
  chunk : Option Nat := none
  /-- Numbers of the writes that are refused, from 0. -/
  refused : List Nat := []
  taken : Array UInt8 := #[]
  /-- Writes made so far. -/
  writes : Nat := 0

namespace Sink

/-- Bytes that the next write takes of `offered` ones. -/
def accepts (s : Sink) (offered : Nat) : Nat :=
  if s.writes ∈ s.refused then 0
  else
    let room := s.capacity.elim offered (· - s.taken.size)
    min (min offered (s.chunk.getD offered)) room

/-- One write. It says how many bytes were taken; none means that it was refused. -/
def write (s : Sink) (bytes : List UInt8) : Nat × Sink :=
  let n := s.accepts bytes.length
  (n, { s with taken := s.taken ++ (bytes.take n).toArray, writes := s.writes + 1 })

/-- Write until all bytes are taken, and say whether they were. No bytes take no write. -/
def writeAll (s : Sink) (bytes : List UInt8) : Bool × Sink :=
  if nonempty : bytes = [] then (true, s)
  else
    let written := s.write bytes
    if written.1 = 0 then (false, written.2)
    else
      have := List.length_pos_iff.mpr nonempty
      written.2.writeAll (bytes.drop written.1)
termination_by bytes.length
decreasing_by
  rw [List.length_drop]
  change bytes.length - written.1 < bytes.length
  omega

/-- Write pieces of text one by one, up to the first that is refused. -/
def writePieces (s : Sink) : List String → Bool × Sink
  | [] => (true, s)
  | piece :: rest =>
    let written := s.writeAll piece.toUTF8.toList
    if written.1 then written.2.writePieces rest else written

end Sink
end TwoWire
