import TwoWire.Controller
import TwoWire.Message
/-!
# A transaction in flight

A transaction walks along a chain of messages, moved by the controller's events. At each event a
status sample says whether the write queue takes a word and whether the read queue holds a byte.
At most one byte goes each way per event, then the transaction turns to the next message if the
current one has been moved in full.

The stop condition of a closing read has to be requested one byte ahead. A read of a single byte
asks for it too late to prevent a second byte, which is awaited and thrown away.
-/
namespace TwoWire

inductive Phase
  | awaitingAddress
  | transferring
  | messageComplete
  | transactionComplete
  | halted
  deriving DecidableEq

def Phase.isTerminal : Phase → Bool
  | transactionComplete => true
  | halted => true
  | _ => false

structure Transaction where
  chain : List Message
  /-- Number of the current message. -/
  current : Nat
  /-- Position in the current message; none while its address byte is pending. -/
  position : Option Nat
  /-- Bytes of the current message that are still to be moved. -/
  left : Nat
  /-- Address and data bytes moved so far. -/
  moved : Nat
  /-- One byte beyond a single-byte read is still to be thrown away. -/
  discardDue : Bool
  /-- Received bytes that no message asked for. The count is a word, so it goes round. -/
  unrequested : UInt32
  fault : Option Fault
  timedOut : Bool
  phase : Phase
  deriving DecidableEq

namespace Transaction
open Program

/-- A transaction before its first event. -/
def start (chain : List Message) : Transaction where
  chain := chain
  current := 0
  position := none
  left := (chain[0]?.map Message.length).getD 0
  moved := 0
  discardDue := false
  unrequested := 0
  fault := none
  timedOut := false
  phase := .awaitingAddress

/-- Messages in the chain. -/
def requested (t : Transaction) : Nat := t.chain.length

/-- Messages moved in full. -/
def completed (t : Transaction) : Nat :=
  t.current + if t.current < t.chain.length ∧ t.position.isSome ∧ t.left = 0 then 1 else 0

/-- Messages not yet left behind, the current one included. -/
def messagesLeft (t : Transaction) : Nat := t.chain.length - t.current

/-- Record that the wait for the bus was given up. -/
def giveUp (t : Transaction) : Transaction := { t with timedOut := true }

/-- A fault ends the transaction for good. -/
def halt (t : Transaction) (fault : Fault) : Transaction :=
  { t with fault := some fault, timedOut := true, phase := .halted }

/-! ## Sending -/

/-- The word to send next: the pending address, or the next byte of a write message. The last byte
of the last message carries the stop request, and so does the address of an empty one. -/
def nextWord? (t : Transaction) : Option FifoWord :=
  match t.chain[t.current]?, t.position with
  | none, _ => none
  | some message, none =>
    some (.address message.address message.isRead (t.messagesLeft = 1 ∧ message.length = 0))
  | some message, some position =>
    if t.left = 0 then none
    else (message.outgoing? position).map fun byte => .data byte (t.left = 1 ∧ t.messagesLeft = 1)

/-- The transaction after its next word went out. -/
def sent (t : Transaction) : Transaction :=
  match t.position with
  | none => { t with position := some 0, moved := t.moved + 1 }
  | some position =>
    { t with position := some (position + 1), left := t.left - 1, moved := t.moved + 1 }

/-- Send the next word, if there is one, and say whether there was. -/
def feed (t : Transaction) : Program (Bool × Transaction) :=
  match t.nextWord? with
  | none => pure (false, t)
  | some word => do
    Controller.pushPaced word.bits
    pure (true, t.sent)

/-- The sending half of an event. A full write queue leaves open whether there is more to send. -/
def feedOn (t : Transaction) (status : Status) : Program (Bool × Transaction) :=
  if status.has .writeFull then pure (true, t) else t.feed

/-! ## Receiving -/

/-- Where the next received byte belongs, if a read message is waiting for one. -/
def slot? (t : Transaction) : Option Nat :=
  match t.chain[t.current]?, t.position with
  | some message, some position => if message.isRead ∧ 0 < t.left then some position else none
  | _, _ => none

/-- The next byte is the only one of its message. -/
def isSingle (t : Transaction) (position : Nat) : Bool := t.left = 1 ∧ position = 0

/-- The stop condition is requested before the last byte but one, or before a single byte. -/
def stopDue (t : Transaction) (position : Nat) : Bool := t.isSingle position || t.left = 2

/-- The transaction after `byte` was stored at `position` of the current message. -/
def received (t : Transaction) (position : Nat) (byte : UInt8) : Transaction :=
  { t with
    chain := t.chain.modify t.current fun message => message.store position byte
    position := some (position + 1)
    left := t.left - 1
    moved := t.moved + 1
    discardDue := t.discardDue || t.isSingle position }

/-- The transaction after a byte was thrown away: the one that was due, or one nobody asked for. -/
def discarded (t : Transaction) : Transaction :=
  if t.discardDue then { t with discardDue := false }
  else { t with unrequested := t.unrequested + 1 }

/-- Take the byte of the read queue. Stop requests are sometimes ignored, so another one goes out
before every second unrequested byte. -/
def drain (t : Transaction) : Program Transaction :=
  match t.slot? with
  | some position => do
    Controller.stopIf (t.stopDue position)
    let byte ← Controller.pull
    pure (t.received position byte)
  | none => do
    Controller.stopIf (t.unrequested % 2 = 1)
    let _ ← Controller.pull
    pure t.discarded

/-- The receiving half of an event. -/
def drainOn (t : Transaction) (status : Status) : Program Transaction :=
  if status.has .readFull then t.drain else pure t

/-! ## Events -/

/-- The next message becomes the current one. -/
def turn (t : Transaction) : Transaction :=
  { t with
    current := t.current + 1
    position := none
    left := (t.chain[t.current + 1]?.map Message.length).getD 0
    phase := .awaitingAddress }

/-- Turn to the next message, or settle the phase. `sending` says that the event may have left words
to send. -/
def advance (t : Transaction) (sending : Bool) : Transaction :=
  if t.position.isSome then
    if t.left = 0 then
      if 1 < t.messagesLeft then t.turn
      else if !sending && !t.discardDue then { t with phase := .transactionComplete }
      else if t.phase ≠ .transactionComplete then { t with phase := .messageComplete }
      else t
    else { t with phase := .transferring }
  else t

/-- Nothing moves a halted transaction, or one without a current message. -/
def isInert (t : Transaction) : Bool := t.phase = .halted ∨ t.chain.length ≤ t.current

/-- Handle one event of the controller. The sample is the only report of its error bits. -/
def onEvent (t : Transaction) (status : Status) : Program Transaction :=
  if t.isInert then pure t
  else match status.fault? with
    | some fault => pure (t.halt fault)
    | none => do
      let fed ← t.feedOn status
      let drained ← fed.2.drainOn status
      pure (drained.advance fed.1)

end Transaction
end TwoWire
