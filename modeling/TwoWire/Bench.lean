import TwoWire.Bench.Engine
/-!
# The bench as hardware

How a bench answers each access. While the clock is gated the registers read zero and take nothing.
Events raised while the interrupt line is masked are dropped, and the write queue keeps the line
raised for as long as a write is going on.
-/
namespace TwoWire.Bench

/-! ## Registers -/

/-- Bits that a sample shows besides the latched errors. -/
def liveBits (b : Bench) : UInt32 :=
  (if b.received.isSome then Status.Flag.readFull.mask else 0) |||
  (if b.isActive then Status.Flag.busActive.mask else 0) |||
  (if b.master then Status.Flag.busMaster.mask else 0)

def padBits (b : Bench) : UInt32 :=
  (if b.sclLow then 0 else 0x100) ||| (if b.sdaLow || b.sdaHeld then 0 else 0x200)

def readRegister (b : Bench) (register : Register) : UInt32 × Bench :=
  if b.clockOn then
    match register with
    | .writeData => (0, b)
    | .clockControl => (b.clockControl, b)
    | .status => (b.errors ||| b.liveBits, { b with errors := 0 })
    | .readData => let pulled := b.pullByte; (pulled.1.toUInt32, pulled.2)
    | .interfaceSelect => (b.padBits, b)
  else (0, b)

def writeRegister (b : Bench) (register : Register) (word : UInt32) : Bench :=
  if b.clockOn then
    match register with
    | .writeData => b.pushWord word
    | .clockControl => { b with clockControl := word }
    | _ => b
  else b

/-! ## Clock and interrupt line -/

def enableClock (b : Bench) (id : UInt32) : Bool × Bench :=
  if id = clock then
    (true, { b with
      clockOn := true
      tally := { b.tally with clockEnables := b.tally.clockEnables + 1 } })
  else (false, b)

def disableClock (b : Bench) (id : UInt32) : Bench :=
  if id = clock then
    { b with
      clockOn := false
      tally := { b.tally with clockDisables := b.tally.clockDisables + 1 } }
  else b

def claimLine (b : Bench) (id : UInt32) : Except ClaimError Unit × Bench :=
  if id = line then
    if b.claimed then (.error .alreadyClaimed, b)
    else (.ok (), { b with
      claimed := true
      tally := { b.tally with claims := b.tally.claims + 1 } })
  else (.error .noSuchLine, b)

def unmask (b : Bench) : Bench :=
  { b with unmasked := true, tally := { b.tally with unmasks := b.tally.unmasks + 1 } }

def mask (b : Bench) : Bench :=
  { b with
    unmasked := false
    edge := b.edge.take.2
    tally := { b.tally with masks := b.tally.masks + 1 } }

/-- The write queue asks for more words. -/
def levelRaised (b : Bench) : Bool := b.mode = .write && b.master && !b.stalled

def takePending (b : Bench) (id : UInt32) : Bool × Bench :=
  if id = line ∧ b.unmasked ∧ b.clockOn then
    (b.edge.take.1 || b.levelRaised, { b with edge := b.edge.take.2 })
  else (false, b)

/-! ## Pads and time -/

/-- The level of a pad; other pins read low. -/
def readPin (b : Bench) (pin : UInt32) : Bool :=
  if pin = scl then !b.sclLow
  else if pin = sda then !b.sdaLow && !b.sdaHeld
  else false

def drivePin (b : Bench) (pin : UInt32) (high : Bool) : Bench :=
  if pin = scl then { b with sclLow := !high }
  else if pin = sda then { b with sdaLow := !high }
  else b

/-- Releasing SCL after it was driven low makes one pulse, which brings a slave that holds SDA one
step nearer to letting go. -/
def turnPin (b : Bench) (pin : UInt32) (direction : Direction) : Bench :=
  match direction with
  | .output => b
  | .input =>
    if pin = scl ∧ b.sclLow then
      { b with
        sclLow := false
        heldPulses := b.heldPulses - 1
        tally := { b.tally with pulses := b.tally.pulses + 1 } }
    else if pin = sda then { b with sdaLow := false }
    else b

/-- A controller that loses the pads drops what it was doing. -/
def routePads (b : Bench) (toBus : Bool) : Bench :=
  let b := { b with
    padsToBus := toBus
    tally := { b.tally with padSwitches := b.tally.padSwitches + 1 } }
  if toBus then b else { b.release with received := none }

def delay (b : Bench) (nanoseconds : UInt32) : Bench :=
  { b with tally := { b.tally with delayed := b.tally.delayed + nanoseconds.toNat } }

/-- The answer of a bench to an access. -/
def respond : Hardware Bench
  | .readRegister register, b => b.readRegister register
  | .writeRegister register word, b => ((), b.writeRegister register word)
  | .enableClock id, b => b.enableClock id
  | .disableClock id, b => ((), b.disableClock id)
  | .claimLine id, b => b.claimLine id
  | .releaseLine _, b => ((), { b with claimed := false })
  | .unmaskLine _, b => ((), b.unmask)
  | .maskLine _, b => ((), b.mask)
  | .takePending id, b => b.takePending id
  | .readPin pin, b => (b.readPin pin, b)
  | .drivePin pin high, b => ((), b.drivePin pin high)
  | .turnPin pin direction, b => ((), b.turnPin pin direction)
  | .routePads toBus, b => ((), b.routePads toBus)
  | .delay nanoseconds, b => ((), b.delay nanoseconds)

end TwoWire.Bench
