import TwoWire.BusClear
import TwoWire.BusConfig
import TwoWire.Text.Digits
import TwoWire.Transaction.Conservation
/-!
# A session on the bus

A session holds the controller's clock and its interrupt line while a transaction runs and gives
both back whatever happens in between.

The end of a transaction is found by polling. Every poll consumes the pending event, takes one
status sample and, if there was an event or the sample carries an error, moves the transaction on
that very sample. Only polls that move no byte count against the poll limit, so the wait is bounded
by the bytes still outstanding.
-/
namespace TwoWire

/-- A bus: its configuration and where it reports. -/
structure Bus where
  config : BusConfig
  logger : Logger
  deriving DecidableEq

/-- What a call on a chain of messages comes to. The chain is handed back with the buffers of its
read messages as they are after the call, also when the call failed. -/
structure Answer (α : Type) where
  result : Except Error α
  chain : List Message

namespace Session
open Program

/-- Polls without progress after which a wait is given up. -/
def pollLimit : Nat := 200

/-- Polls without progress after which each further one pauses. -/
def backoffAfter : Nat := 100

/-- Length of that pause. -/
def backoffMicros : UInt32 := 10

/-- The pause after a poll that was preceded by `idle` others without progress. -/
def backoff (idle : Nat) : Program Unit :=
  if backoffAfter < idle then delayMicros backoffMicros else pure ()

def reportGivenUp (bus : Bus) : Program Unit :=
  bus.logger.debug ["timed out waiting for bus idle"]

/-! ## Waiting for an idle bus -/

/-- One poll without a transaction: whether the bus is busy. -/
def pollIdle (bus : Bus) : Program Bool := do
  let _ ← takePending bus.config.line
  let status ← Controller.sample
  pure status.isBusy

/-- Say how many polls found the bus busy, if any did. -/
def reportWait (bus : Bus) (polls : Nat) : Program Unit :=
  if 0 < polls then bus.logger.debug ["bus was busy (", toString polls, ")"] else pure ()

/-- Poll up to `tries` more times until the bus is idle. -/
def awaitIdle (bus : Bus) : (tries : Nat) → Program Bool
  | 0 => do
    reportGivenUp bus
    pure false
  | tries + 1 => do
    let busy ← pollIdle bus
    if busy then do
      backoff (pollLimit - (tries + 1))
      awaitIdle bus tries
    else do
      reportWait bus (pollLimit - (tries + 1))
      pure true

/-! ## Waiting for a transaction -/

/-- A transaction after a poll or a wait, and whether the bus came to rest. -/
structure Watched where
  quiet : Bool
  transaction : Transaction

/-- One poll with a transaction in flight. The bus is at rest if the sample shows it inactive and
the transaction, if it was moved, has ended. -/
def poll (bus : Bus) (t : Transaction) : Program Watched := do
  let pending ← takePending bus.config.line
  let status ← Controller.sample
  if pending || status.fault?.isSome then do
    let next ← t.onEvent status
    pure ⟨!status.isBusy && next.phase.isTerminal, next⟩
  else pure ⟨!status.isBusy, t⟩

theorem poll_returns {bus : Bus} {t : Transaction} {seen : Watched}
    (h : (poll bus t).Returns seen) :
    seen.transaction = t ∨ ∃ status, (t.onEvent status).Returns seen.transaction := by
  simp only [poll, returns_bind] at h
  obtain ⟨pending, _, status, _, h⟩ := h
  split at h
  · simp only [returns_bind, returns_pure] at h
    obtain ⟨next, hn, rfl⟩ := h
    exact .inr ⟨status, hn⟩
  · simp only [returns_pure] at h
    subst h
    exact .inl rfl

/-- A poll moves bytes from the outstanding ones or moves nothing. -/
theorem balance_poll {bus : Bus} {t : Transaction} {seen : Watched}
    (h : (poll bus t).Returns seen) :
    seen.transaction.moved + seen.transaction.outstanding = t.moved + t.outstanding ∧
      t.moved ≤ seen.transaction.moved := by
  rcases poll_returns h with h | ⟨status, h⟩
  · simp [h]
  · exact ⟨Transaction.balance_onEvent h, Transaction.moved_le_onEvent h⟩

/-- Poll until the bus is at rest; `idle` polls in a row have moved nothing so far. -/
def settle (bus : Bus) (idle : Nat) (t : Transaction) : Program Watched :=
  if idle < pollLimit then
    (poll bus t).bindOn fun seen reached =>
      have := balance_poll reached
      if seen.quiet then pure seen
      else if seen.transaction.moved = t.moved then do
        backoff idle
        settle bus (idle + 1) seen.transaction
      else settle bus 0 seen.transaction
  else do
    reportGivenUp bus
    pure ⟨false, t⟩
termination_by pollLimit * (t.outstanding + 1) - idle
decreasing_by
  all_goals
    simp only [pollLimit] at *
    omega

theorem settle_eq (bus : Bus) (idle : Nat) (t : Transaction) :
    settle bus idle t =
      if idle < pollLimit then
        poll bus t >>= fun seen =>
          if seen.quiet then pure seen
          else if seen.transaction.moved = t.moved then
            backoff idle >>= fun _ => settle bus (idle + 1) seen.transaction
          else settle bus 0 seen.transaction
      else
        reportGivenUp bus >>= fun _ => pure ⟨false, t⟩ := by
  rw [settle]
  split
  · exact bindOn_eq_bind _ _
  · rfl

/-! ## One transaction -/

def reportUnrequested (bus : Bus) (t : Transaction) : Program Unit :=
  if 0 < t.unrequested then
    bus.logger.debug [toString t.unrequested.toNat, " unrequested bytes read"]
  else pure ()

def reportIncomplete (bus : Bus) (t : Transaction) : Program Unit :=
  if t.completed < t.requested then
    bus.logger.debug
      ["transfer incomplete (", toString t.completed, "/", toString t.requested, ")"]
  else pure ()

/-- Clear the bus if it is stuck. -/
def clear (bus : Bus) : Program (Except Error Unit) := do
  let cleared ← (BusClear.start bus.config.scl bus.config.sda).run
  match cleared.1 with
  | .notNeeded => pure (.ok ())
  | .cleared pulses => do
    bus.logger.debug ["bus busy cleared after ", toString pulses, " clock cycles"]
    pure (.ok ())
  | .stillBusy => do
    let status ← Controller.sample
    bus.logger.error ("bus still busy, status " :: Text.hex status.word.toNat)
    pure (.error .notReady)

/-- The answer for a transaction that has come to rest. A fault is reported whether or not the bus
comes back from it. -/
def conclude (bus : Bus) (t : Transaction) : Program (Answer Nat) :=
  match t.fault with
  | some fault => do
    bus.logger.error ["error during data xfer: ", fault.name]
    let _ ← clear bus
    pure ⟨.error (.halted fault), t.chain⟩
  | none => do
    reportIncomplete bus t
    pure ⟨.ok t.completed, t.chain⟩

/-- The answer for a transaction whose wait was given up: what it comes to once the bus is free. -/
def abandon (bus : Bus) (t : Transaction) : Program (Answer Nat) := do
  bus.logger.debug ["still busy after xfer completion"]
  let cleared ← clear bus
  match cleared with
  | .ok () => conclude bus t.giveUp
  | .error _ => pure ⟨.error .busBusy, t.chain⟩

/-- Run a chain on an idle bus. The controller raises no event until the first byte is written, so
the transaction gets its first event here. -/
def carry (bus : Bus) (chain : List Message) : Program (Answer Nat) := do
  let status ← Controller.sample
  let primed ← (Transaction.start chain).onEvent status
  let watched ← settle bus 0 primed
  reportUnrequested bus watched.transaction
  if watched.quiet then conclude bus watched.transaction
  else abandon bus watched.transaction

/-- Run a chain as one transaction. A bus that stays busy beforehand is cleared first. -/
def transact (bus : Bus) (chain : List Message) : Program (Answer Nat) := do
  let idle ← awaitIdle bus pollLimit
  if idle then carry bus chain
  else do
    let cleared ← clear bus
    match cleared with
    | .ok () => carry bus chain
    | .error error => pure ⟨.error error, chain⟩

/-- Hold the clock and the interrupt line while `body` runs. If the clock is refused nothing else
happens and the result is `refused`. -/
def hold {α : Type} (bus : Bus) (refused : α) (body : Program α) : Program α := do
  let granted ← enableClock bus.config.clock
  if granted then do
    unmaskLine bus.config.line
    let result ← body
    maskLine bus.config.line
    disableClock bus.config.clock
    pure result
  else pure refused

end Session
end TwoWire
