/-!
# Log lines

A log line has a fixed capacity in bytes. It is filled piece by piece, and a piece that does not fit
is dropped whole together with everything after it.
-/
namespace TwoWire.Text.Line

/-- Bytes that one line holds. -/
def capacity : Nat := 128

/-- The pieces that go into `room` bytes, joined. -/
def fill : (room : Nat) → List String → String
  | _, [] => ""
  | room, piece :: rest =>
    if piece.utf8ByteSize ≤ room then piece ++ fill (room - piece.utf8ByteSize) rest else ""

/-- The line made of `pieces`. -/
def ofPieces (pieces : List String) : String := fill capacity pieces

theorem utf8ByteSize_fill_le (room : Nat) (pieces : List String) :
    (fill room pieces).utf8ByteSize ≤ room := by
  induction pieces generalizing room with
  | nil => simp [fill]
  | cons piece rest ih =>
    unfold fill
    split
    · have := ih (room - piece.utf8ByteSize)
      rw [String.utf8ByteSize_append]
      omega
    · simp

/-- A line never outgrows its capacity. -/
theorem utf8ByteSize_ofPieces_le (pieces : List String) :
    (ofPieces pieces).utf8ByteSize ≤ capacity :=
  utf8ByteSize_fill_le capacity pieces

end TwoWire.Text.Line
