import TwoWire.Controller
import TwoWire.Program.Returns
/-!
# Clearing a stuck bus

A slave that lost clocks in the middle of a byte holds SDA low and keeps the bus active. The
procedure hands the pads to plain pin control, clocks SCL by hand until the slave lets go of SDA,
and hands the pads back. A bus that is not stuck is not touched.
-/
namespace TwoWire

/-- How the procedure ends. -/
inductive ClearOutcome
  /-- The bus was idle and nothing was touched. -/
  | notNeeded
  | cleared (pulses : Nat)
  | stillBusy
  deriving DecidableEq

inductive ClearState
  | idle
  | probeStatus
  /-- Pulses issued so far. -/
  | pulseClock (issued : Nat)
  | restorePads
  | done (outcome : ClearOutcome)
  deriving DecidableEq

structure BusClear where
  scl : UInt32
  sda : UInt32
  state : ClearState
  /-- SCL was high at the end of the last pulse. -/
  clockHigh : Bool
  /-- Pulses issued when the pulsing ended. -/
  pulses : Nat
  deriving DecidableEq

namespace BusClear
open Program

/-- Pulses after which the procedure gives up. -/
def pulseLimit : Nat := 9

def start (scl sda : UInt32) : BusClear := ⟨scl, sda, .idle, false, 0⟩

def outcome? (c : BusClear) : Option ClearOutcome :=
  match c.state with
  | .done outcome => some outcome
  | _ => none

/-- Empty the controller's queues of what keeps it from letting go: a received byte, or else a
transaction of our own. -/
def unblock (status : Status) : Program Unit :=
  if status.has .readFull then do
    Controller.push FifoWord.stop.bits
    let _ ← Controller.pull
    pure ()
  else if status.has .busMaster then Controller.push (FifoWord.data 0xff true).bits
  else pure ()

/-- Decide from one sample whether there is anything to clear. -/
def probe (c : BusClear) : Program BusClear := do
  let status ← Controller.sample
  if status.meets (Status.Flag.busActive.mask ||| Status.Flag.writeFull.mask) then do
    routePads false
    unblock status
    pure { c with state := .pulseClock 0 }
  else pure { c with state := .done .notNeeded }

/-- Wait `nanoseconds` if SCL is still low. -/
def stretch (c : BusClear) (nanoseconds : UInt32) : Program Unit := do
  let high ← readPin c.scl
  if high then pure () else delay nanoseconds

/-- One pulse: both lines are driven low, then SCL and SDA are released. A slave that stretches the
clock gets time to let SCL rise. -/
def pulse (c : BusClear) (issued : Nat) : Program BusClear := do
  drivePin c.scl false
  delay 5
  drivePin c.sda false
  delay 5
  turnPin c.scl .input
  delay 5
  c.stretch 20
  c.stretch 10000
  let high ← readPin c.scl
  turnPin c.sda .input
  delay 5
  pure { c with state := .pulseClock (issued + 1), clockHigh := high }

/-- Pulse until SDA reads high after a pulse that ended with SCL high. -/
def pulseClock (c : BusClear) (issued : Nat) : Program BusClear :=
  if pulseLimit ≤ issued then pure { c with state := .restorePads, pulses := issued }
  else do
    let released ← readPin c.sda
    if released && c.clockHigh then pure { c with state := .restorePads, pulses := issued }
    else c.pulse issued

/-- Hand the pads back and look whether the bus is free. -/
def restore (c : BusClear) : Program BusClear := do
  routePads true
  delay 10
  let status ← Controller.sample
  pure { c with state := .done (if status.isBusy then .stillBusy else .cleared c.pulses) }

/-- One transition. -/
def step (c : BusClear) : Program BusClear :=
  match c.state with
  | .idle => pure { c with state := .probeStatus }
  | .probeStatus => c.probe
  | .pulseClock issued => c.pulseClock issued
  | .restorePads => c.restore
  | .done _ => pure c

/-- A bound on the transitions that are left. -/
def distance (c : BusClear) : Nat :=
  match c.state with
  | .idle => pulseLimit + 4
  | .probeStatus => pulseLimit + 3
  | .pulseClock issued => pulseLimit + 2 - min issued pulseLimit
  | .restorePads => 1
  | .done _ => 0

/-- Every transition comes nearer to the end. -/
theorem distance_step {c c' : BusClear} (h : c.step.Returns c') :
    c'.distance < c.distance ∨ c'.distance = 0 := by
  unfold step at h
  split at h <;> rename_i hs
  · simp only [returns_pure] at h
    subst h
    simp [distance, hs]
  · simp only [probe, returns_bind] at h
    obtain ⟨status, _, h⟩ := h
    split at h
    · simp only [returns_bind, returns_pure] at h
      obtain ⟨_, _, _, _, rfl⟩ := h
      simp [distance, hs]
    · simp only [returns_pure] at h
      subst h
      simp [distance, hs]
  · rename_i issued
    simp only [pulseClock] at h
    split at h
    · simp only [returns_pure] at h
      subst h
      simp [distance, hs]
      omega
    · simp only [returns_bind] at h
      obtain ⟨released, _, h⟩ := h
      split at h
      · simp only [returns_pure] at h
        subst h
        simp [distance, hs]
        omega
      · simp only [pulse, returns_bind, returns_pure] at h
        obtain ⟨_, _, _, _, _, _, _, _, _, _, _, _, _, _, _, _, high, _, _, _, _, _, rfl⟩ := h
        simp [distance, hs]
        omega
  · simp only [restore, returns_bind, returns_pure] at h
    obtain ⟨_, _, _, _, status, _, rfl⟩ := h
    simp [distance]
  · simp only [returns_pure] at h
    subst h
    simp [distance, hs]

theorem distance_eq_zero_iff {c : BusClear} : c.distance = 0 ↔ c.outcome?.isSome := by
  unfold distance outcome?
  cases c.state <;> simp
  omega

theorem distance_lt {c next : BusClear} (reached : c.step.Returns next)
    (unfinished : next.outcome? = none) : next.distance < c.distance := by
  rcases distance_step reached with h | h
  · exact h
  · rw [distance_eq_zero_iff, unfinished] at h
    cases h

/-- Step until the procedure is done. -/
def run (c : BusClear) : Program (ClearOutcome × BusClear) :=
  c.step.bindOn fun next reached =>
    match unfinished : next.outcome? with
    | some outcome => pure (outcome, next)
    | none =>
      have := distance_lt reached unfinished
      next.run
termination_by c.distance

theorem run_eq (c : BusClear) :
    c.run = c.step >>= fun next =>
      match next.outcome? with
      | some outcome => pure (outcome, next)
      | none => next.run := by
  rw [run, ← bindOn_eq_bind]
  congr
  funext next _
  split <;> simp_all

end BusClear
end TwoWire
