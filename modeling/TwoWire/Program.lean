import TwoWire.Access
import TwoWire.Log
import TwoWire.Text.Line
/-!
# Programs over the hardware

A program is a tree: a leaf is its result, a node is one access with a subtree for every answer, or
one log entry. Nothing about the hardware is built in. The simplifier brings a sequence of accesses
into this form.
-/
namespace TwoWire

inductive Program (α : Type) : Type
  | done (value : α)
  | access (request : Access) (next : request.Reply → Program α)
  | note (entry : LogEntry) (next : Program α)

namespace Program

variable {α β γ σ : Type}

/-- Continue with the result of a program. -/
protected def bind : Program α → (α → Program β) → Program β
  | done a, f => f a
  | access request next, f => access request fun reply => (next reply).bind f
  | note entry next, f => note entry (next.bind f)

instance : Monad Program where
  pure := done
  bind := Program.bind

@[simp] theorem done_eq (a : α) : (done a : Program α) = pure a := rfl

@[simp] theorem access_bind (request : Access) (next : request.Reply → Program α)
    (f : α → Program β) :
    access request next >>= f = access request fun reply => next reply >>= f := rfl

@[simp] theorem note_bind (entry : LogEntry) (next : Program α) (f : α → Program β) :
    note entry next >>= f = note entry (next >>= f) := rfl

theorem bind_pure_self (p : Program α) : p.bind done = p := by
  induction p with
  | done a => rfl
  | access request next ih => simp only [Program.bind, ih]
  | note entry next ih => simp only [Program.bind, ih]

theorem bind_bind (p : Program α) (f : α → Program β) (g : β → Program γ) :
    (p.bind f).bind g = p.bind fun a => (f a).bind g := by
  induction p with
  | done a => rfl
  | access request next ih => simp only [Program.bind, ih]
  | note entry next ih => simp only [Program.bind, ih]

instance : LawfulMonad Program := LawfulMonad.mk' Program bind_pure_self (fun _ _ => rfl) bind_bind

@[simp] theorem access_map (request : Access) (next : request.Reply → Program α) (f : α → β) :
    f <$> access request next = access request fun reply => f <$> next reply := by
  simp only [← bind_pure_comp, access_bind]

@[simp] theorem note_map (entry : LogEntry) (next : Program α) (f : α → β) :
    f <$> note entry next = note entry (f <$> next) := by
  simp only [← bind_pure_comp, note_bind]

/-! ## One access each -/

@[simp] def readRegister (register : Register) : Program UInt32 :=
  access (.readRegister register) pure

@[simp] def writeRegister (register : Register) (word : UInt32) : Program Unit :=
  access (.writeRegister register word) pure

/-- Whether the clock was granted. -/
@[simp] def enableClock (clock : UInt32) : Program Bool := access (.enableClock clock) pure

@[simp] def disableClock (clock : UInt32) : Program Unit := access (.disableClock clock) pure

@[simp] def claimLine (line : UInt32) : Program (Except ClaimError Unit) :=
  access (.claimLine line) pure

@[simp] def releaseLine (line : UInt32) : Program Unit := access (.releaseLine line) pure

@[simp] def unmaskLine (line : UInt32) : Program Unit := access (.unmaskLine line) pure

@[simp] def maskLine (line : UInt32) : Program Unit := access (.maskLine line) pure

/-- Whether an event was pending on the line; it is consumed. -/
@[simp] def takePending (line : UInt32) : Program Bool := access (.takePending line) pure

@[simp] def readPin (pin : UInt32) : Program Bool := access (.readPin pin) pure

@[simp] def drivePin (pin : UInt32) (high : Bool) : Program Unit :=
  access (.drivePin pin high) pure

@[simp] def turnPin (pin : UInt32) (direction : Direction) : Program Unit :=
  access (.turnPin pin direction) pure

@[simp] def routePads (toBus : Bool) : Program Unit := access (.routePads toBus) pure

@[simp] def delay (nanoseconds : UInt32) : Program Unit := access (.delay nanoseconds) pure

/-- One pause, counted in microseconds. -/
@[simp] def delayMicros (microseconds : UInt32) : Program Unit := delay (microseconds * 1000)

/-- Write log entries. -/
def notes : List LogEntry → Program Unit
  | [] => pure ()
  | entry :: rest => note entry (notes rest)

end Program

namespace Logger

/-- What reporting a line made of `pieces` adds to the log. -/
def entries (logger : Logger) (level : Level) (pieces : List String) : List LogEntry :=
  match logger with
  | silent => []
  | onto channel => [⟨channel, level, Text.Line.ofPieces pieces⟩]

def debug (logger : Logger) (pieces : List String) : Program Unit :=
  .notes (logger.entries .debug pieces)

def error (logger : Logger) (pieces : List String) : Program Unit :=
  .notes (logger.entries .error pieces)

end Logger
end TwoWire
